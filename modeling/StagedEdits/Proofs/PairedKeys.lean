import StagedEdits.Proofs.DistinctKeys
import StagedEdits.Proofs.Partition

/-!
# Keys after a fetch

Where the other sessions have only added rows, a fetch that is decided for the session changes the content
of no item.  Two live items can share a key afterwards only if one of them is new, loaded from a row that was
paired with no item, although the other one has a key of it.  An item is *clear* (`Item.Clear`) if that
cannot happen to it: it has keys in common with one row at most, its status is true, and its row leads to
it.  If all live items are clear, no key is shared (`Connection.keysApart_of_fetchTable`).  An item of a kind
with two unique keys can meet one row through each of them, though; the row that it is not paired with is
given up, even if another live item with a key of it has no row (`Workspace.key_shared_by_fetch`).

* `Pairing.Exhaustive`: a row that is left without an item has no key of a live item.
* `Session.Traced`: where the content of an item comes from.
-/

namespace StagedEdits

namespace Kind

variable {k : Kind} {rows : List Record}

/-- No two of the rows have a unique key in common. -/
def KeysDistinct (k : Kind) (rows : List Record) : Prop :=
  rows.Pairwise fun row row' => ¬ k.SharesKey row row'

instance : Decidable (k.KeysDistinct rows) := inferInstanceAs (Decidable (List.Pairwise _ _))

theorem KeysDistinct.eq_index (h : k.KeysDistinct rows) {i j : Nat} {row row' : Record}
    (hrow : rows[i]? = some row) (hrow' : rows[j]? = some row') (hshares : k.SharesKey row row') :
    i = j := by
  unfold KeysDistinct at h
  rw [List.pairwise_iff_getElem] at h
  obtain ⟨hi, rfl⟩ := List.getElem?_eq_some_iff.1 hrow
  obtain ⟨hj, rfl⟩ := List.getElem?_eq_some_iff.1 hrow'
  rcases Nat.lt_trichotomy i j with hlt | heq | hgt
  · exact absurd hshares (h i j hi hj hlt)
  · exact heq
  · exact absurd hshares.symm (h j i hj hi hgt)

/-- In a kind with one unique key a record has one key at most. -/
theorem eq_of_mem_keysOf (hone : k.uniqueKeys.length ≤ 1) {r : Record} {key key' : UniqueKey}
    (hkey : key ∈ k.keysOf r) (hkey' : key' ∈ k.keysOf r) : key = key' := by
  have hlength : (k.keysOf r).length ≤ 1 := by
    refine Nat.le_trans (List.length_filterMap_le ..) ?_
    rwa [List.length_zipIdx]
  obtain ⟨i, hi, rfl⟩ := List.getElem_of_mem hkey
  obtain ⟨j, hj, rfl⟩ := List.getElem_of_mem hkey'
  obtain rfl : i = j := by omega
  rfl

end Kind

/-- Nothing keeps a row with a key of the item from being paired with it: what its status says of its row
is so, its row leads to it, and no two rows have a key in common with it, through which they would
compete.  Where the rows share no key, the last is the case by itself in a kind with one unique key. -/
structure Item.Clear (t : Table) (rows : List Record) (item : Item) : Prop where
  status : item.StatusHolds
  bound : ∀ d, item.dbId = some d → t.itemOfRow? d = some item.id
  single : 1 < t.kind.uniqueKeys.length → ∀ row ∈ rows, ∀ row' ∈ rows,
    t.kind.SharesKey item.content row → t.kind.SharesKey item.content row' → row = row'

theorem Item.Clear.eq_index {t : Table} {rows : List Record} {item : Item} (h : item.Clear t rows)
    (hrows : t.kind.KeysDistinct rows) {i j : Nat} {row row' : Record} (hi : rows[i]? = some row)
    (hj : rows[j]? = some row') (hshares : t.kind.SharesKey item.content row)
    (hshares' : t.kind.SharesKey item.content row') : i = j := by
  refine hrows.eq_index hi hj ?_
  by_cases hmany : 1 < t.kind.uniqueKeys.length
  · have heq := h.single hmany row (List.mem_of_getElem? hi) row' (List.mem_of_getElem? hj) hshares
      hshares'
    obtain ⟨key, -, hkey⟩ := hshares
    exact ⟨key, hkey, heq ▸ hkey⟩
  · obtain ⟨key, hitem, hkey⟩ := hshares
    obtain ⟨key', hitem', hkey'⟩ := hshares'
    obtain rfl := Kind.eq_of_mem_keysOf (Nat.le_of_not_lt hmany) hitem hitem'
    exact ⟨key, hkey, hkey'⟩

namespace Table

variable {t : Table} {rows : List Record} {id : ItemId} {item : Item} {row : Record} {d : DbId}

/-- The rows that items stand for are among the given ones, just as the items last agreed with them. -/
def RowsKept (t : Table) (rows : List Record) : Prop :=
  ∀ e ∈ t.boundRows, ∃ row ∈ rows, row.dbId? = some e.1 ∧ (t.get? e.2).bind Item.synced = some row

instance : Decidable (t.RowsKept rows) :=
  inferInstanceAs (Decidable (∀ e ∈ t.boundRows, ∃ row ∈ rows, _))

/-- A table with clear live items, and rows of which those that were known have not changed. -/
structure Ready (t : Table) (rows : List Record) : Prop where
  sound : t.Sound
  keys : t.KeysExact
  item_kind : ∀ ⦃id item⦄, t.get? id = some item → item.kind = t.kind
  ids : (rows.filterMap Record.dbId?).Nodup
  distinct : t.kind.KeysDistinct rows
  kept : t.RowsKept rows
  clear : ∀ ⦃id item⦄, t.get? id = some item → item.removed = false → item.Clear t rows

namespace Ready

variable (h : t.Ready rows)

include h

theorem exists_row (hd : t.itemOfRow? d = some id) (hitem : t.get? id = some item) :
    ∃ row ∈ rows, row.dbId? = some d ∧ item.synced = some row := by
  obtain ⟨row, hrow, hdb, hsync⟩ := h.kept (d, id) (mem_boundRows_iff.2 hd)
  rw [hitem] at hsync
  exact ⟨row, hrow, hdb, hsync⟩

theorem synced_eq (hd : t.itemOfRow? d = some id) (hitem : t.get? id = some item)
    (hrow : row ∈ rows) (hdb : row.dbId? = some d) : item.synced = some row := by
  obtain ⟨row', hrow', hdb', hsync⟩ := h.exists_row hd hitem
  obtain ⟨i, hi⟩ := List.mem_iff_getElem?.1 hrow
  obtain ⟨j, hj⟩ := List.mem_iff_getElem?.1 hrow'
  obtain rfl := eq_of_nodup_filterMap h.ids hi hj hdb hdb'
  rw [hsync]
  exact hj.symm.trans hi

/-- A live item without a local change has the keys of its row. -/
theorem keysOf_eq (hd : t.itemOfRow? d = some id) (hitem : t.get? id = some item)
    (hlive : item.removed = false) (hst : item.status ≠ .toUpdate) (hrow : row ∈ rows)
    (hdb : row.dbId? = some d) : t.kind.keysOf item.content = t.kind.keysOf row := by
  have hstatus := (h.clear hitem hlive).status
  unfold Item.StatusHolds at hstatus
  cases hs : item.status with
  | committed =>
    rw [hs] at hstatus
    obtain ⟨-, row', -, hsync, hagrees⟩ := hstatus
    obtain rfl := Option.some.inj ((h.synced_eq hd hitem hrow hdb).symm.trans hsync)
    refine Session.keysOf_congr fun field hf => ?_
    rw [← h.item_kind hitem] at hf
    exact of_decide_eq_true (List.all_eq_true.1 hagrees field hf)
  | toAdd =>
    rw [hs] at hstatus
    obtain ⟨x, hx, hdb'⟩ := h.sound hd
    obtain rfl := Option.some.inj (hitem.symm.trans hx)
    rw [hstatus.1] at hdb'
    cases hdb'
  | toUpdate => exact absurd hs hst
  | toRemove => rw [Item.removed, hs] at hlive; cases hlive
  | addedAndRemoved => rw [Item.removed, hs] at hlive; cases hlive

end Ready

end Table

/-! ### Rows that are left without an item -/

namespace Pairing

variable {t : Table} {rows : List Record} {p : Pairing}

/-- Rows have been paired with items for good reasons, and those that were given up have no key of a live
item. -/
structure Exhaustive (t : Table) (rows : List Record) (p : Pairing) : Prop
    extends Justified t rows p where
  spent : ∀ ⦃i : Nat⦄ ⦃row : Record⦄, p.slots[i]? = some (row, none) → i ∉ p.queue →
    ∀ ⦃id item⦄, t.get? id = some item → item.removed = false →
      ¬ t.kind.SharesKey item.content row

theorem Valid.row_eq (h : p.Valid t rows) {i : Nat} {slot : Record × Option ItemId}
    (hi : p.slots[i]? = some slot) : rows[i]? = some slot.1 := by
  rw [← h.rows_eq, List.getElem?_map, hi]
  rfl

/-- A row that can take no live item has no key of one.  The first live item that has a key of it was
taken by a row with a key in common, and then it has keys in common with two rows; or it stays with its own
row, which then has the keys of the item, and two rows share one. -/
theorem Justified.not_sharesKey (h : p.Justified t rows) (hr : t.Ready rows) {i : Nat} {row : Record}
    (hi : p.slots[i]? = some (row, none)) (hnone : p.liveClaimant? t row = none) {id : ItemId}
    {item : Item} (hitem : t.get? id = some item) (hlive : item.removed = false) :
    ¬ t.kind.SharesKey item.content row := by
  intro hmeets
  obtain ⟨id', hmatch⟩ := hr.keys.exists_liveMatch? hitem hlive hmeets
  obtain ⟨first, hfirst, hflive, hshares⟩ := Table.liveMatch?_spec hr.keys.sound hmatch
  have hclear := hr.clear hfirst hflive
  have hrow : rows[i]? = some row := h.row_eq hi
  have hother : ∀ {j : Nat} {a : Record}, p.slots[j]? = some (a, some id') → i ≠ j := by
    rintro j a hj rfl
    cases hi.symm.trans hj
  have htaken : id' ∉ p.claimed := by
    intro hclaimed
    obtain ⟨j, row', hj⟩ := h.claimed hclaimed
    rcases h.reason hj with ⟨hnot, -⟩ | ⟨-, x, hx, helig⟩
    · exact hnot hclaimed
    · obtain rfl := Option.some.inj (hfirst.symm.trans hx)
      exact hother hj (hclear.eq_index hr.distinct hrow (h.row_eq hj) hshares helig.shares)
  rcases liveClaimant?_eq_none hmatch hfirst hnone with
    hclaimed | ⟨hown, d, hdb, hd⟩ | ⟨own, hown, hst⟩
  · exact htaken hclaimed
  · -- an item whose row was fetched is paired with some row
    obtain rfl := t.id_eq hfirst
    rw [Table.rowIds_eq h.toValid] at hd
    obtain ⟨j, a, hj⟩ := h.paired (hclear.bound d hdb) hd
    exact rowOf?_eq_none hown hj
  · obtain ⟨row', hj⟩ := rowOf?_eq_some hown
    rcases h.reason hj with ⟨-, d, hdb, hd⟩ | ⟨hclaimed, -⟩
    · have hkeys := hr.keysOf_eq hd hfirst hflive hst (List.mem_of_getElem? (h.row_eq hj)) hdb
      obtain ⟨key, hkey, hkey'⟩ := hshares
      exact hother hj (hr.distinct.eq_index hrow (h.row_eq hj) ⟨key, hkey', hkeys ▸ hkey⟩)
    · exact htaken hclaimed

theorem exhaustive_start (hr : t.Ready rows) : (start t rows).Exhaustive t rows := by
  refine ⟨justified_start hr.ids hr.sound, fun i row hi hnot => absurd ?_ hnot⟩
  exact List.mem_map.2 ⟨((row, none), i),
    List.mem_filter.2 ⟨List.mem_zipIdx_iff_getElem?.2 hi, rfl⟩, rfl⟩

theorem Exhaustive.look (hr : t.Ready rows) (h : p.Exhaustive t rows) {i : Nat} {rest : List Nat}
    (hqueue : p.queue = i :: rest) : (look t { p with queue := rest } i).Exhaustive t rows := by
  refine ⟨h.toJustified.look hr.keys.sound hqueue, fun j a hj hnot => ?_⟩
  obtain ⟨hj, hbefore | hnone⟩ := h.toValid.unpaired_of_look hqueue hj hnot
  · exact h.spent hj hbefore
  · exact fun id item hitem hlive =>
      h.toJustified.not_sharesKey hr hj (Option.or_eq_none_iff.1 hnone).1 hitem hlive

end Pairing

namespace Table

variable {t : Table} {rows : List Record}

theorem Ready.exhaustive_pair (h : t.Ready rows) :
    (t.pair rows).Exhaustive t rows ∧ (t.pair rows).queue = [] :=
  Pairing.run_induction (fun _ _ _ hqueue hp => hp.look h hqueue) (Pairing.exhaustive_start h)

/-- A row that becomes a new item has no key of a live one. -/
theorem Ready.not_sharesKey_of_unknown (h : t.Ready rows) {row : Record}
    (hf : Finding.unknown row ∈ t.findings rows) {id : ItemId} {item : Item}
    (hitem : t.get? id = some item) (hlive : item.removed = false) :
    ¬ t.kind.SharesKey item.content row := by
  obtain ⟨hp, hqueue⟩ := h.exhaustive_pair
  obtain ⟨i, hslot⟩ := exists_slot_of_unknown hp.toValid hf
  exact hp.spent hslot (by rw [hqueue]; exact List.not_mem_nil) hitem hlive

/-- The row of a committed item has not changed. -/
theorem Ready.ne_changed (h : t.Ready rows) {f : Finding} (hf : f ∈ t.findings rows) (id : ItemId)
    (row : Record) : f ≠ .changed id row := by
  rintro rfl
  obtain ⟨hp, -⟩ := h.exhaustive_pair
  rcases mem_findings hf with ⟨i, a, id?, hslot, he⟩ | ⟨x, -, he⟩
  · rcases findingFor_cases hp.toValid hslot with ⟨-, he'⟩ | ⟨_, x, rfl, hx, rfl, he'⟩
    · cases he.trans he'
    have he := he.trans he'
    rcases x.findingWith_cases a with ⟨hwith, -⟩ | ⟨hwith, hst⟩ | ⟨hwith, -⟩ | ⟨d, hwith, -⟩ <;>
      rw [hwith] at he <;> cases he
    have hlive : x.removed = false := by rw [Item.removed, hst]; rfl
    have hclear := h.clear hx hlive
    have hsync : x.synced = some row := by
      rcases hp.reason hslot with ⟨-, d, hdb, hd⟩ | ⟨-, y, hy, helig⟩
      · exact h.synced_eq hd hx (List.mem_of_getElem? (hp.row_eq hslot)) hdb
      · -- a committed item has a row among those that are given, and keeps it
        obtain rfl := Option.some.inj (hx.symm.trans hy)
        have hstatus := hclear.status
        unfold Item.StatusHolds at hstatus
        rw [hst] at hstatus
        obtain ⟨d, -, hdb, -⟩ := hstatus
        obtain ⟨row', hrow', hdb', -⟩ := h.exists_row (hclear.bound d hdb) hx
        rcases helig.leaves with hup | haway
        · rw [hst] at hup
          cases hup
        · exact absurd (List.mem_filterMap.2 ⟨row', hrow', hdb'⟩) (haway d hdb)
    unfold Item.findingWith at hwith
    rw [hst] at hwith
    dsimp only at hwith
    rw [if_pos hsync] at hwith
    cases hwith
  · rcases x.findingWithout_cases with ⟨d, hwithout, -⟩ | ⟨hwithout, -⟩ | ⟨hwithout, -⟩ <;>
      rw [hwithout] at he <;> cases he

end Table

/-- The row that a finding adds. -/
def Finding.new? : Finding → Option Record
  | unknown row => some row
  | _ => none

theorem Finding.eq_unknown {f : Finding} {row : Record} (h : f.new? = some row) :
    f = .unknown row := by
  cases f <;> cases h
  rfl

namespace Table

variable {t : Table} {rows : List Record}

/-- Every row is added once at most. -/
theorem new_sublist_rows (hp : (t.pair rows).Valid t rows) :
    ((t.findings rows).filterMap Finding.new?).Sublist rows := by
  have hnone : (t.unmatched (t.pair rows)).filterMap (Finding.new? ∘ Item.findingWithout) = [] := by
    refine List.filterMap_eq_nil_iff.2 fun x _ => ?_
    rw [Function.comp_apply]
    rcases x.findingWithout_cases with ⟨d, hf, -⟩ | ⟨hf, -⟩ | ⟨hf, -⟩ <;> rw [hf] <;> rfl
  have hslots : ((t.pair rows).slots.filterMap
      (Finding.new? ∘ fun slot => t.findingFor slot.1 slot.2)).Sublist
        ((t.pair rows).slots.map (·.1)) := by
    refine filterMap_sublist_map fun slot hslot row hrow => ?_
    obtain ⟨i, hi⟩ := List.mem_iff_getElem?.1 hslot
    rw [Function.comp_apply] at hrow
    rcases findingFor_cases hp hi with ⟨-, he⟩ | ⟨id, x, -, -, -, he⟩
    · rw [he] at hrow
      exact (Option.some.inj hrow).symm
    · rw [he] at hrow
      rcases x.findingWith_cases slot.1 with ⟨hf, -⟩ | ⟨hf, -⟩ | ⟨hf, -⟩ | ⟨d, hf, -⟩ <;>
        rw [hf] at hrow <;> cases hrow
  rw [hp.rows_eq] at hslots
  rwa [findings_eq, List.filterMap_append, List.filterMap_map, List.filterMap_map, hnone,
    List.append_nil]

end Table

/-! ### Contents after a fetch -/

namespace Session

variable {s s' : Session} {kind : Kind} {loaded loaded' : List (ItemId × Record)} {id : ItemId}
  {a b : Item}

/-- The content of an item is that of the item that was there before, or of a row that was loaded. -/
inductive Traced (s : Session) (kind : Kind) (loaded : List (ItemId × Record)) (id : ItemId)
    (item : Item) : Prop
  | kept {x : Item} (hitem : s.item? ⟨kind, id⟩ = some x) (content_eq : item.content = x.content)
      (live : item.removed = false → x.removed = false) : Traced s kind loaded id item
  | loaded {row : Record} (hrow : (id, row) ∈ loaded)
      (content_eq : item.content = kind.contentOf row) : Traced s kind loaded id item

theorem Traced.mono (h : s.Traced kind loaded id a) (hsub : loaded ⊆ loaded') :
    s.Traced kind loaded' id a := by
  cases h with
  | kept hitem hcontent hlive => exact .kept hitem hcontent hlive
  | loaded hrow hcontent => exact .loaded (hsub hrow) hcontent

theorem Traced.congr (h : s.Traced kind loaded id a) (hcontent : b.content = a.content)
    (hlive : b.removed = false → a.removed = false) : s.Traced kind loaded id b := by
  cases h with
  | kept hitem hold hwas => exact .kept hitem (hcontent.trans hold) fun hb => hwas (hlive hb)
  | loaded hrow hold => exact .loaded hrow (hcontent.trans hold)

/-- An item that is live in the end may have been removed in between, if it was live before. -/
theorem Traced.congr_of_live (h : s.Traced kind loaded id a) (hcontent : b.content = a.content)
    {x : Item} (hx : s.item? ⟨kind, id⟩ = some x) (hlive : x.removed = false) :
    s.Traced kind loaded id b := by
  cases h with
  | kept hitem hold =>
    obtain rfl := Option.some.inj (hx.symm.trans hitem)
    exact .kept hx (hcontent.trans hold) fun _ => hlive
  | loaded hrow hold => exact .loaded hrow (hcontent.trans hold)

/-- No two live items of a kind have a unique key in common. -/
def KeysApartIn (s : Session) (kind : Kind) : Prop :=
  ∀ ⦃i j : ItemId⦄ ⦃a b : Item⦄, s.item? ⟨kind, i⟩ = some a → s.item? ⟨kind, j⟩ = some b →
    a.removed = false → b.removed = false → kind.SharesKey a.content b.content → i = j

instance : Decidable (s.KeysApartIn kind) :=
  decidable_of_iff (∀ a ∈ s.all kind, ∀ b ∈ s.all kind, a.removed = false → b.removed = false →
    kind.SharesKey a.content b.content → a.id = b.id)
    ⟨fun h i j a b ha hb hla hlb hshares => by
      obtain rfl : a.id = i := item_id ha
      obtain rfl : b.id = j := item_id hb
      exact h a (mem_all_iff.2 ha) b (mem_all_iff.2 hb) hla hlb hshares,
    fun h a ha b hb => h (mem_all_iff.1 ha) (mem_all_iff.1 hb)⟩

theorem sharesKey_contentOf_iff {r row : Record} :
    kind.SharesKey r (kind.contentOf row) ↔ kind.SharesKey r row := by
  unfold Kind.SharesKey
  rw [keysOf_contentOf]

/-- If the content of all items can be traced back, no two live ones share a key: not two that were there
before, nor two that were loaded, nor one of each. -/
theorem keysApartIn_of_traced {rows : List Record} (hs : s.Coherent)
    (hr : (s.table kind).Ready rows)
    (hloaded : loaded.map (·.2) = ((s.table kind).findings rows).filterMap Finding.new?)
    (htraced : ∀ ⦃id item⦄, s'.item? ⟨kind, id⟩ = some item → s.Traced kind loaded id item) :
    s'.KeysApartIn kind := by
  have hkind := hs.kind_eq kind
  have hold : ∀ {i x}, s.item? ⟨kind, i⟩ = some x → (s.table kind).get? i = some x := by
    intro i x hx
    rwa [item?_eq] at hx
  have hnew : ∀ {i row}, (i, row) ∈ loaded →
      Finding.unknown row ∈ (s.table kind).findings rows := by
    intro i row hrow
    obtain ⟨f, hf, hnew⟩ := List.mem_filterMap.1 (hloaded ▸ List.mem_map.2 ⟨_, hrow, rfl⟩)
    exact Finding.eq_unknown hnew ▸ hf
  have hmixed : ∀ {i j x row}, s.item? ⟨kind, i⟩ = some x → x.removed = false →
      (j, row) ∈ loaded → ¬ kind.SharesKey x.content (kind.contentOf row) := by
    intro i j x row hx hlive hrow hshares
    refine hr.not_sharesKey_of_unknown (hnew hrow) (hold hx) hlive ?_
    rw [hkind]
    exact sharesKey_contentOf_iff.1 hshares
  intro i j a b ha hb hla hlb hshares
  cases htraced ha with
  | kept hx hxc hxl =>
    rw [hxc] at hshares
    cases htraced hb with
    | kept hy hyc hyl =>
      rw [hyc] at hshares
      refine hr.keys.eq_of_sharesKey (hold hx) (hold hy) (hxl hla) (hyl hlb) ?_
      rwa [hkind]
    | loaded hrow hyc =>
      rw [hyc] at hshares
      exact absurd hshares (hmixed hx (hxl hla) hrow)
  | @loaded row hrow hxc =>
    rw [hxc] at hshares
    cases htraced hb with
    | kept hy hyc hyl =>
      rw [hyc] at hshares
      exact absurd hshares.symm (hmixed hy (hyl hlb) hrow)
    | @loaded row' hrow' hyc =>
      rw [hyc] at hshares
      have hdistinct : (s.table kind).kind.KeysDistinct (loaded.map (·.2)) :=
        hloaded ▸ hr.distinct.sublist (Table.new_sublist_rows hr.exhaustive_pair.1.toValid)
      obtain ⟨n, hn⟩ := List.mem_iff_getElem?.1 hrow
      obtain ⟨m, hm⟩ := List.mem_iff_getElem?.1 hrow'
      have hrows : kind.SharesKey row row' :=
        (sharesKey_contentOf_iff.1 (sharesKey_contentOf_iff.1 hshares).symm).symm
      obtain rfl : n = m := hdistinct.eq_index (by rw [List.getElem?_map, hn]; rfl)
        (by rw [List.getElem?_map, hm]; rfl) (by rwa [hkind])
      exact congrArg Prod.fst (Option.some.inj (hn.symm.trans hm))

end Session

namespace Absorption

open Session

variable {s : Session} {kind : Kind} {loaded : List (ItemId × Record)} {a : Absorption}

/-- The contents of all items, those set aside included, can be traced back. -/
structure Traces (s : Session) (kind : Kind) (loaded : List (ItemId × Record)) (a : Absorption) :
    Prop where
  item : ∀ ⦃id item⦄, a.session.item? ⟨kind, id⟩ = some item → s.Traced kind loaded id item
  aside : ∀ c ∈ a.conflicts, s.Traced kind loaded c.item.id c.item

/-- Taking in a finding other than that the row of a committed item has changed. -/
theorem Traces.step (h : Traces s kind loaded a) {f : Finding} (hf : f.Concerns (s.table kind))
    (hne : ∀ id row, f ≠ .changed id row) : ∃ new : List (ItemId × Record),
      new.map (·.2) = f.new?.toList ∧ Traces s kind (loaded ++ new) (a.step kind f) := by
  have hnone : ∀ {a' : Absorption}, Traces s kind loaded a' → ∃ new : List (ItemId × Record),
      new.map (·.2) = [] ∧ Traces s kind (loaded ++ new) a' := fun h' =>
    ⟨[], rfl, by rwa [List.append_nil]⟩
  cases f with
  | changed id row => exact absurd rfl (hne id row)
  | same id => exact hnone h
  | unknown row =>
    refine ⟨[(a.session.nextId, row)], rfl, fun id item hi => ?_, fun c hc => ?_⟩
    · have hput : (a.step kind (.unknown row)).session.item? ⟨kind, id⟩ =
          if (⟨kind, id⟩ : ItemRef) = ⟨kind, a.session.nextId⟩ then
            some (.loaded a.session.nextId kind row)
          else a.session.item? ⟨kind, id⟩ := item?_put ..
      rw [hput] at hi
      split at hi
      next he =>
        obtain rfl := congrArg ItemRef.id he
        obtain rfl := Option.some.inj hi
        exact .loaded (List.mem_append_right _ (List.mem_singleton.2 rfl)) rfl
      next => exact (h.item hi).mono (List.subset_append_left ..)
    · exact (h.aside c hc).mono (List.subset_append_left ..)
  | twin id row =>
    obtain ⟨x, hx, hst⟩ := hf
    unfold Absorption.step
    dsimp only
    split
    next => exact hnone h
    next y hy =>
      refine hnone ⟨fun id' item hi => ?_, h.aside⟩
      dsimp only at hi
      rw [item?_put, y.ref_claim] at hi
      split at hi
      next he =>
        obtain rfl : id' = y.id := congrArg ItemRef.id he
        obtain rfl : y.id = id := item_id hy
        obtain rfl := Option.some.inj hi
        exact (h.item hy).congr_of_live (y.content_claim row) ((item?_eq ..).trans hx)
          (by rw [Item.removed, hst]; rfl)
      next => exact h.item hi
  | conflict id row d =>
    unfold Absorption.step
    dsimp only
    split
    next => exact hnone h
    next y hy =>
      refine hnone ⟨fun id' item hi => h.item (item?_of_drop hi), fun c hc => ?_⟩
      rcases List.mem_append.1 hc with hc | hc
      · exact h.aside c hc
      · obtain rfl := List.mem_singleton.1 hc
        obtain rfl : y.id = id := item_id hy
        exact h.item hy
  | gone id => exact hnone ⟨fun id' item hi => h.item (item?_of_evict hi), h.aside⟩

theorem Traces.foldl (h : Traces s kind loaded a) {fs : List Finding}
    (hfs : ∀ f ∈ fs, f.Concerns (s.table kind) ∧ ∀ id row, f ≠ .changed id row) :
    ∃ new : List (ItemId × Record), new.map (·.2) = fs.filterMap Finding.new? ∧
      Traces s kind (loaded ++ new) (fs.foldl (Absorption.step kind) a) := by
  induction fs generalizing a loaded with
  | nil => exact ⟨[], rfl, by rwa [List.append_nil]⟩
  | cons f fs ih =>
    obtain ⟨hf, hne⟩ := hfs f (List.mem_cons_self ..)
    obtain ⟨new, hnew, hstep⟩ := h.step hf hne
    obtain ⟨new', hnew', hrest⟩ := ih hstep fun g hg => hfs g (List.mem_cons_of_mem _ hg)
    refine ⟨new ++ new', ?_, by rwa [← List.append_assoc]⟩
    rw [List.map_append, hnew, hnew', List.filterMap_cons]
    cases f.new? <;> rfl

/-- Carrying out answers that keep the items changes no content. -/
theorem traced_foldl_answered {ordered : List Resolved}
    (hordered : ∀ r ∈ ordered, r.choice = .keepLocal ∧ s.Traced kind loaded r.item.id r.item)
    {t : Session}
    (ht : ∀ ⦃id item⦄, t.item? ⟨kind, id⟩ = some item → s.Traced kind loaded id item) ⦃id : ItemId⦄
    ⦃item : Item⦄ (hi : (ordered.foldl answered t).item? ⟨kind, id⟩ = some item) :
    s.Traced kind loaded id item := by
  induction ordered generalizing t with
  | nil => exact ht hi
  | cons r ordered ih =>
    obtain ⟨hchoice, hr⟩ := hordered r (List.mem_cons_self ..)
    refine ih (fun r' hr' => hordered r' (List.mem_cons_of_mem _ hr')) (fun id' x hx => ?_) hi
    rw [answered_eq] at hx
    split at hx
    next b hb =>
      rw [item?_put, Resolved.ref_outcome? hb] at hx
      split at hx
      next he =>
        obtain rfl : id' = r.item.id := congrArg ItemRef.id he
        obtain rfl := Option.some.inj hx
        obtain ⟨hrem, hcontent⟩ := Resolved.kept_outcome? hb hchoice
        exact hr.congr hcontent fun hlive => hrem.symm.trans hlive
      next => exact ht hx
    next => exact ht hx

/-- Settling the conflicts for the session changes no content. -/
theorem Traces.settle (h : Traces s kind loaded a) {answers : List Resolved}
    (hfault : contractFault? a.conflicts answers = none)
    (hkeep : ∀ r ∈ answers, r.choice = .keepLocal) ⦃id : ItemId⦄ ⦃item : Item⦄
    (hi : (a.session.settle a.conflicts answers).2.item? ⟨kind, id⟩ = some item) :
    s.Traced kind loaded id item := by
  obtain ⟨ordered, hperm, hsettle⟩ := exists_settle_eq a.session hfault
  rw [hsettle] at hi
  refine traced_foldl_answered (fun r hr => ?_) h.item (item?_of_evictReferrers hi)
  have hr := hperm.mem_iff.1 hr
  obtain ⟨c, hc, heq⟩ := item_mem_of_contractFault? hfault r hr
  exact ⟨hkeep r hr, heq ▸ h.aside c hc⟩

/-- The conflicts are about items and rows that the findings name, in their order. -/
theorem exists_conflicts_foldl (kind : Kind) (fs : List Finding) (a : Absorption) : ∃ new : List Conflict,
    (fs.foldl (Absorption.step kind) a).conflicts = a.conflicts ++ new ∧
      (new.map (·.item.id)).Sublist (fs.filterMap Finding.about?) ∧
      (new.filterMap (·.row)).Sublist (fs.filterMap Finding.row?) := by
  induction fs generalizing a with
  | nil => exact ⟨[], (List.append_nil _).symm, .slnil, .slnil⟩
  | cons f fs ih =>
    obtain ⟨new, heq, hids, hrows⟩ := ih (a.step kind f)
    have hlater : ∀ {β : Type} (g : Finding → Option β),
        (fs.filterMap g).Sublist ((f :: fs).filterMap g) := fun g =>
      (List.sublist_cons_self f fs).filterMap g
    have hidle : (a.step kind f).conflicts = a.conflicts → ∃ new : List Conflict,
        (fs.foldl (Absorption.step kind) (a.step kind f)).conflicts = a.conflicts ++ new ∧
          (new.map (·.item.id)).Sublist ((f :: fs).filterMap Finding.about?) ∧
          (new.filterMap (·.row)).Sublist ((f :: fs).filterMap Finding.row?) := fun hsame =>
      ⟨new, hsame ▸ heq, hids.trans (hlater _), hrows.trans (hlater _)⟩
    rw [List.foldl_cons]
    cases f with
    | conflict id row d =>
      cases hy : a.session.item? ⟨kind, id⟩ with
      | none =>
        refine hidle ?_
        unfold Absorption.step
        dsimp only
        rw [hy]
      | some y =>
        have hstep : (a.step kind (.conflict id row d)).conflicts = a.conflicts ++ [⟨y, row⟩] := by
          unfold Absorption.step
          dsimp only
          rw [hy]
        obtain rfl : y.id = id := item_id hy
        refine ⟨⟨y, row⟩ :: new, ?_, hids.cons_cons _, ?_⟩
        · rw [heq, hstep, List.append_assoc]
          rfl
        · rw [List.filterMap_cons, List.filterMap_cons]
          cases row with
          | none => exact hrows
          | some row => exact hrows.cons_cons _
    | changed id row | twin id row =>
      refine hidle ?_
      unfold Absorption.step
      dsimp only
      split <;> rfl
    | unknown row => exact hidle rfl
    | same id => exact hidle rfl
    | gone id => exact hidle rfl

end Absorption

namespace Session

variable {s : Session} {kind : Kind} {rows : List Record}

/-- No item is in conflict twice, and no row. -/
theorem nodup_conflicts_absorb (hs : s.Coherent) (hrows : (rows.filterMap Record.dbId?).Nodup) :
    ((s.absorb kind rows).conflicts.map (·.item.id)).Nodup ∧
      (((s.absorb kind rows).conflicts.filterMap (·.row)).filterMap Record.dbId?).Nodup := by
  obtain ⟨new, heq, hids, hrow⟩ := Absorption.exists_conflicts_foldl kind
    ((s.table kind).findings (s.readable kind rows)) ⟨s.markFetched kind,
      { skipped := rows.length - (s.readable kind rows).length }, []⟩
  have hread : ((s.readable kind rows).filterMap Record.dbId?).Nodup := nodup_readable hrows
  have hvalid := Table.valid_pair (hs.sound kind) hread
  have habsorb : (s.absorb kind rows).conflicts = new := heq
  rw [habsorb]
  exact ⟨hids.nodup (Table.nodup_about? hvalid),
    ((hrow.trans (Table.rows_sublist_findings hvalid)).filterMap _).nodup hread⟩

/-- The keys of rows are as distinct when they are read. -/
theorem keysDistinct_readable (h : kind.KeysDistinct rows) :
    kind.KeysDistinct (s.readable kind rows) := by
  unfold Kind.KeysDistinct readable
  rw [List.pairwise_filterMap]
  refine h.imp fun hnot r hr r' hr' hshares => hnot ?_
  exact (sharesKey_iff_of_localRow? hr hr').1 hshares

section

variable (hs : s.Coherent) (hkeys : (s.table kind).KeysExact)
  (hids : (rows.filterMap Record.dbId?).Nodup) (hdistinct : kind.KeysDistinct rows)
  (hkept : (s.table kind).RowsKept (s.readable kind rows))

include hs hkeys hids hdistinct hkept

theorem ready_readable
    (hclear : ∀ item ∈ (s.table kind).live, item.Clear (s.table kind) (s.readable kind rows)) :
    (s.table kind).Ready (s.readable kind rows) where
  sound := hs.sound kind
  keys := hkeys
  item_kind id item hi :=
    (hs.item_kind ((item?_eq s ⟨kind, id⟩).trans hi)).trans (hs.kind_eq kind).symm
  ids := nodup_readable hids
  distinct := by rw [hs.kind_eq]; exact keysDistinct_readable hdistinct
  kept := hkept
  clear id item hi hlive := by
    obtain rfl := (s.table kind).id_eq hi
    exact hclear item (List.mem_filter.2 ⟨Table.mem_all_iff.2 hi, by rw [hlive]; rfl⟩)

omit hs hkeys hids hdistinct hkept in
theorem traces_absorb (hready : (s.table kind).Ready (s.readable kind rows)) :
    ∃ loaded : List (ItemId × Record), loaded.map (·.2) =
        ((s.table kind).findings (s.readable kind rows)).filterMap Finding.new? ∧
      Absorption.Traces s kind loaded (s.absorb kind rows) := by
  have hstart : Absorption.Traces s kind [] ⟨s.markFetched kind,
      { skipped := rows.length - (s.readable kind rows).length }, []⟩ :=
    ⟨fun id item hi => .kept ((item?_markFetched ..).symm.trans hi) rfl fun hlive => hlive,
      fun c hc => absurd hc List.not_mem_nil⟩
  exact hstart.foldl fun f hf => ⟨Table.concerns_of_mem_findings hf, hready.ne_changed hf⟩

/-- Taking in rows among which those that were known have not changed, if all conflicts are decided for
the session, leaves no key to two live items that were clear. -/
theorem keysApartIn_reconcile {answer : List Conflict → List Resolved}
    (hanswer : ∀ cs, Answers cs (answer cs) ∧ ∀ r ∈ answer cs, r.choice = .keepLocal) :
    ∃ report s' conflicts, s.reconcile kind rows answer = (.ok report, s', conflicts) ∧
      ((∀ item ∈ (s.table kind).live, item.Clear (s.table kind) (s.readable kind rows)) →
        s'.KeysApartIn kind) := by
  have hnodup : ((s.absorb kind rows).conflicts.map (·.item.id)).Nodup :=
    (nodup_conflicts_absorb hs hids).1
  have hfault := contractFault?_eq_none (hanswer _).1 hnodup
  have hready := ready_readable hs hkeys hids hdistinct hkept
  rcases s.reconcile_cases kind rows answer with
    ⟨-, hrec⟩ | ⟨-, fault, hbroken, -⟩ | ⟨-, -, _, -, hrec⟩
  · refine ⟨_, _, _, hrec, fun hclear => ?_⟩
    obtain ⟨loaded, hloaded, htraces⟩ := traces_absorb (hready hclear)
    exact keysApartIn_of_traced hs (hready hclear) hloaded htraces.item
  · rw [hfault] at hbroken
    cases hbroken
  · refine ⟨_, _, _, hrec, fun hclear => ?_⟩
    obtain ⟨loaded, hloaded, htraces⟩ := traces_absorb (hready hclear)
    exact keysApartIn_of_traced hs (hready hclear) hloaded (htraces.settle hfault (hanswer _).2)

end

end Session

namespace Connection

variable {σ : Type} [Store σ]

/-- A table is fetched, be it on its own account, as one that another depends on, or in a refresh, in a
session whose key index is exact, while the rows that its items stand for are stored as the items last
agreed with them, and no two rows share a unique key.  When every conflict is decided for the session, the
fetch succeeds; and if every live item was clear, no two live items share a unique key. -/
theorem keysApart_of_fetchTable {resolver : Resolver} {kind : Kind} {c : Connection σ} {store : σ}
    {rows : List Record} (hc : c.session.Coherent) (hkeys : (c.session.table kind).KeysExact)
    (hfetch : (Store.fetch kind : StoreM σ (List Record)) c.store = (.ok rows, store))
    (hids : (rows.filterMap Record.dbId?).Nodup) (hdistinct : kind.KeysDistinct rows)
    (hkept : (c.session.table kind).RowsKept (c.session.readable kind rows))
    (hresolver : ∀ conflicts, Answers conflicts (resolver c.passes conflicts) ∧
      ∀ r ∈ resolver c.passes conflicts, r.choice = .keepLocal) :
    ∃ report c', fetchTable resolver kind c = (.ok report, c') ∧
      ((∀ item ∈ (c.session.table kind).live,
        item.Clear (c.session.table kind) (c.session.readable kind rows)) →
          c'.session.KeysApartIn kind) := by
  obtain ⟨report, s', conflicts, hrec, hapart⟩ :=
    Session.keysApartIn_reconcile hc hkeys hids hdistinct hkept hresolver
  exact ⟨report, _, fetchTable_of_fetch hfetch hrec, hapart⟩

end Connection

namespace Workspace

/-- Two sessions know a scenario with a part.  One of them gives it another alternative and rank, and adds a
second part; the other one has added a part with that alternative at a third rank, and the second part as
well. -/
def movedPart : List Event :=
  [.connect "a" {}, .ask "a" (.add .scenario (.ofList [("name", .text "plan")])),
    .ask "a" (.add .alternative (.ofList [("name", .text "base")])),
    .ask "a" (.add .alternative (.ofList [("name", .text "low")])),
    .ask "a" (.add .alternative (.ofList [("name", .text "high")])),
    .ask "a" (.add .scenarioAlternative (.ofList [("scenario_id", .ref ⟨1⟩),
      ("alternative_id", .ref ⟨2⟩), ("rank", .integer 1)])),
    .ask "a" (.commit "plan"), .connect "b" {}, .ask "b" (.fetch .scenarioAlternative none),
    .ask "b" (.add .scenarioAlternative (.ofList [("scenario_id", .ref ⟨4⟩),
      ("alternative_id", .ref ⟨2⟩), ("rank", .integer 7)])),
    .ask "b" (.add .scenarioAlternative (.ofList [("scenario_id", .ref ⟨4⟩),
      ("alternative_id", .ref ⟨3⟩), ("rank", .integer 2)])),
    .ask "b" (.commit "parts"),
    .ask "a" (.update ⟨.scenarioAlternative, ⟨5⟩⟩
      (.ofList [("alternative_id", .ref ⟨3⟩), ("rank", .integer 5)])),
    .ask "a" (.add .scenarioAlternative (.ofList [("scenario_id", .ref ⟨1⟩),
      ("alternative_id", .ref ⟨4⟩), ("rank", .integer 2)]))]

set_option maxRecDepth 4000 in
/-- The first part moves to the row with its alternative, its own row is loaded as a new item, and the
second part takes the row of its twin. -/
theorem keysApart_of_fetchTable_of_movedPart : ∃ (w : Workspace Database) (s : Session)
    (report : FetchReport) (c' : Connection Database), w.session? "a" = some s ∧ s.Coherent ∧
      (s.table .scenarioAlternative).KeysExact ∧
      ((w.store.rows .scenarioAlternative).filterMap Record.dbId?).Nodup ∧
      Kind.scenarioAlternative.KeysDistinct (w.store.rows .scenarioAlternative) ∧
      (s.table .scenarioAlternative).RowsKept
        (s.readable .scenarioAlternative (w.store.rows .scenarioAlternative)) ∧
      (∀ item ∈ (s.table .scenarioAlternative).live, item.Clear (s.table .scenarioAlternative)
        (s.readable .scenarioAlternative (w.store.rows .scenarioAlternative))) ∧
      Connection.fetchTable Choice.keepLocal.resolver .scenarioAlternative ⟨s, w.store, []⟩ =
        (.ok report, c') ∧
      report = { added := 1, adopted := 1, conflicts := 1 } ∧
      c'.session.KeysApartIn .scenarioAlternative := by
  have hrun : Run (fun w e => w.Plain e ∧ w.Heeds "a" (fun s _ command => command.isCandid s = true) e)
      (new .empty) movedPart := by decide +kernel
  have hreach : ((new .empty).after movedPart).Reachable (CandidRun "a") :=
    ⟨movedPart, hrun.mono fun _ _ h => ⟨h.1.orderly, h.2⟩, rfl⟩
  have hcheck : (((new .empty).after movedPart).session? "a").any (fun s =>
      let rows := ((new .empty).after movedPart).store.rows .scenarioAlternative
      let t := s.table .scenarioAlternative
      let read := s.readable .scenarioAlternative rows
      decide (∀ item ∈ t.all, ∀ key ∈ t.keysOf item, t.keys.holder? key = some item.id) &&
        decide ((rows.filterMap Record.dbId?).Nodup) &&
        decide (Kind.scenarioAlternative.KeysDistinct rows) && decide (t.RowsKept read) &&
        decide (∀ item ∈ t.live, ∀ row ∈ read, ∀ row' ∈ read, t.kind.SharesKey item.content row →
          t.kind.SharesKey item.content row' → row = row') &&
        decide ((Connection.fetchTable Choice.keepLocal.resolver .scenarioAlternative
          ⟨s, ((new .empty).after movedPart).store, []⟩).1 =
            .ok { added := 1, adopted := 1, conflicts := 1 })) = true := by
    decide +kernel
  have hattained := (Attained.new Database.empty).after movedPart
  revert hreach hcheck hattained
  generalize (new .empty).after movedPart = w
  intro hreach hcheck hattained
  obtain ⟨s, hs, hcheck⟩ := (Option.any_eq_true ..).1 hcheck
  dsimp only at hcheck
  simp only [Bool.and_eq_true, decide_eq_true_eq] at hcheck
  obtain ⟨⟨⟨⟨⟨hholds, hids⟩, hdistinct⟩, hkept⟩, hsingle⟩, hreport⟩ := hcheck
  obtain ⟨hreg, hcandid⟩ := candid_of_reachable hreach hs
  have hwf : s.WellFormed := (hreg.session hs).toWellFormed
  have hkeys := ((hattained.lawful Item.law_tidy hs).table .scenarioAlternative).keysSound.exact hholds
  have hclear : ∀ item ∈ (s.table .scenarioAlternative).live,
      item.Clear (s.table .scenarioAlternative)
        (s.readable .scenarioAlternative (w.store.rows .scenarioAlternative)) := by
    intro item hitem
    have hi : s.item? ⟨.scenarioAlternative, item.id⟩ = some item := by
      rw [Session.item?_eq]
      exact Table.mem_all_iff.1 (List.mem_filter.1 hitem).1
    exact ⟨Item.statusHolds_of_faithful (hcandid.faithful hi) (hwf.consistent hi),
      fun d hd => (hwf.exact _).complete ((Session.item?_eq ..).symm.trans hi) hd,
      fun _ => hsingle item hitem⟩
  have hresolver : ∀ conflicts, Answers conflicts (Choice.keepLocal.resolver [] conflicts) ∧
      ∀ r ∈ Choice.keepLocal.resolver [] conflicts, r.choice = .keepLocal := by
    refine fun conflicts => ⟨Choice.keepLocal.honest_resolver [] conflicts, fun r hr => ?_⟩
    obtain ⟨c, -, rfl⟩ := List.mem_map.1 hr
    rfl
  obtain ⟨report, c', hfetch, hapart⟩ := Connection.keysApart_of_fetchTable
    (c := ⟨s, w.store, []⟩) hwf.toCoherent hkeys rfl hids hdistinct hkept hresolver
  rw [hfetch] at hreport
  exact ⟨w, s, report, c', hs, hwf.toCoherent, hkeys, hids, hdistinct, hkept, hclear, hfetch,
    Except.ok.inj hreport, hapart hclear⟩

/-- Two sessions know a scenario and three alternatives.  One of them adds a part with the first
alternative and one with the second; the other one has added a part with the third alternative at the rank of
the first part, and one with the first alternative at the rank of the second part. -/
def crossedParts : List Event :=
  [.connect "a" {}, .ask "a" (.add .scenario (.ofList [("name", .text "plan")])),
    .ask "a" (.add .alternative (.ofList [("name", .text "base")])),
    .ask "a" (.add .alternative (.ofList [("name", .text "low")])),
    .ask "a" (.add .alternative (.ofList [("name", .text "high")])), .ask "a" (.commit "plan"),
    .ask "a" (.fetch .scenarioAlternative none),
    .ask "a" (.add .scenarioAlternative (.ofList [("scenario_id", .ref ⟨1⟩),
      ("alternative_id", .ref ⟨2⟩), ("rank", .integer 1)])),
    .ask "a" (.add .scenarioAlternative (.ofList [("scenario_id", .ref ⟨1⟩),
      ("alternative_id", .ref ⟨3⟩), ("rank", .integer 2)])),
    .connect "b" {}, .ask "b" (.fetch .scenarioAlternative none),
    .ask "b" (.add .scenarioAlternative (.ofList [("scenario_id", .ref ⟨4⟩),
      ("alternative_id", .ref ⟨3⟩), ("rank", .integer 1)])),
    .ask "b" (.add .scenarioAlternative (.ofList [("scenario_id", .ref ⟨4⟩),
      ("alternative_id", .ref ⟨1⟩), ("rank", .integer 2)])),
    .ask "b" (.commit "parts")]

set_option maxRecDepth 4000 in
/-- The first part takes the row with its rank.  The row with its alternative is loaded as a new item, though
the second part has the rank of it and no row; now three live items share keys, and no commit is accepted. -/
theorem key_shared_by_fetch : ∃ (w w' : Workspace Database) (s s' : Session) (report : FetchReport)
    (passes : List (List Conflict)) (key : UniqueKey), w.Reachable Orderly ∧
      w.session? "a" = some s ∧ (s.table .scenarioAlternative).KeysExact ∧
      s.KeysApartIn .scenarioAlternative ∧
      Kind.scenarioAlternative.KeysDistinct (w.store.rows .scenarioAlternative) ∧
      (s.table .scenarioAlternative).RowsKept
        (s.readable .scenarioAlternative (w.store.rows .scenarioAlternative)) ∧
      w.perform "a" s (.fetch .scenarioAlternative (some Choice.keepLocal.resolver)) =
        (.ok (.report report), passes, w') ∧
      w'.session? "a" = some s' ∧ ¬ s'.KeysApartIn .scenarioAlternative ∧
      ((s'.item? ⟨.scenarioAlternative, ⟨6⟩⟩).any fun item => item.dbId.isNone) = true ∧
      (w'.perform "a" s' (.commit "mine")).1 = .error (.keyTaken .scenarioAlternative key) := by
  have hrun : Run Plain (new .empty) crossedParts := by decide +kernel
  have hcheck : (((new .empty).after crossedParts).session? "a").any (fun s =>
      let rows := ((new .empty).after crossedParts).store.rows .scenarioAlternative
      let t := s.table .scenarioAlternative
      let (reply, _, w') := ((new .empty).after crossedParts).perform "a" s
        (.fetch .scenarioAlternative (some Choice.keepLocal.resolver))
      decide (∀ item ∈ t.all, ∀ key ∈ t.keysOf item, t.keys.holder? key = some item.id) &&
        decide (s.KeysApartIn .scenarioAlternative) &&
        decide (Kind.scenarioAlternative.KeysDistinct rows) &&
        decide (t.RowsKept (s.readable .scenarioAlternative rows)) &&
        decide (reply = .ok (.report { added := 1, adopted := 1 })) &&
        (w'.session? "a").any fun s' => decide (¬ s'.KeysApartIn .scenarioAlternative) &&
          ((s'.item? ⟨.scenarioAlternative, ⟨6⟩⟩).any fun item => item.dbId.isNone) &&
          decide ((w'.perform "a" s' (.commit "mine")).1 =
            .error (.keyTaken .scenarioAlternative ⟨0, [.ref ⟨1⟩, .ref ⟨2⟩]⟩))) = true := by
    decide +kernel
  obtain ⟨s, hs, hcheck⟩ := (Option.any_eq_true ..).1 hcheck
  rcases hfetch : ((new .empty).after crossedParts).perform "a" s
    (.fetch .scenarioAlternative (some Choice.keepLocal.resolver)) with ⟨reply, passes, w'⟩
  rw [hfetch] at hcheck
  dsimp only at hcheck
  simp only [Bool.and_eq_true, decide_eq_true_eq] at hcheck
  obtain ⟨⟨⟨⟨⟨hholds, hapart⟩, hdistinct⟩, hkept⟩, rfl⟩, hafter⟩ := hcheck
  obtain ⟨s', hs', hafter⟩ := (Option.any_eq_true ..).1 hafter
  simp only [Bool.and_eq_true, decide_eq_true_eq] at hafter
  obtain ⟨⟨hshared, hnone⟩, hrefused⟩ := hafter
  have hlawful : s.Lawful Item.Tidy :=
    ((Attained.new Database.empty).after crossedParts).lawful Item.law_tidy hs
  exact ⟨_, w', s, s', _, passes, _, hrun.reachable, hs,
    (hlawful.table .scenarioAlternative).keysSound.exact hholds, hapart, hdistinct, hkept, hfetch, hs',
    hshared, hnone, hrefused⟩

end Workspace

end StagedEdits
