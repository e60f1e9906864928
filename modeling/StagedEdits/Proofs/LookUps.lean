import Mathlib.Data.List.Induction
import StagedEdits.Proofs.Partition

/-!
# Look-ups and the history of a table

A table finds by its indices which live item has a unique key of a record, and which item stands for a
row.  An item that is put in takes its keys and its row over from the items that have them.  When it
leaves, or gives them up, they do not go back.  So of all items that were put in with a key or a row the
indices know the last one only (`Table.Indexes.eq_latest?`).

* `Table.lookUps_made`: what is found is right, whatever the history of the table; and everything is found
  exactly if every live item is the last that was put in with each of its keys, and the last item that was
  put in with a row is still there with it, as long as any item has it.
* `Table.overlooked_of_takenOver`: a live item that no look-up finds.
-/

namespace StagedEdits

namespace Kind

variable {k : Kind} {r : Record} {key : UniqueKey}

/-- No unique key of a kind has all fields of another one. -/
theorem eq_of_uniqueKeys_subset {fields fields' : List String} {i j : Nat}
    (hi : (fields, i) ∈ k.uniqueKeys.zipIdx) (hj : (fields', j) ∈ k.uniqueKeys.zipIdx)
    (hsub : fields ⊆ fields') : (fields, i) = (fields', j) := by
  have hall : ∀ e ∈ k.uniqueKeys.zipIdx, ∀ e' ∈ k.uniqueKeys.zipIdx,
      (∀ field ∈ e.1, field ∈ e'.1) → e = e' := by
    cases k <;> decide
  exact hall _ hi _ hj fun _ hfield => hsub hfield

/-- For each key of a record there is a record that has no other. -/
theorem exists_keysOf_eq_singleton (h : key ∈ k.keysOf r) :
    ∃ r', ∀ key', key' ∈ k.keysOf r' ↔ key' = key := by
  obtain ⟨fields, hfields, hvalues, hnull⟩ := mem_keysOf_iff.1 h
  let part : Record := r.filter fun field _ => field ∈ fields
  have hvalue : ∀ field, part.value field = if field ∈ fields then r.value field else .null := by
    intro field
    unfold Record.value
    rw [SortedMap.get?_filter]
    by_cases hf : field ∈ fields <;> cases r.get? field <;> simp [hf, Option.filter_some]
  have hsame : key.values = fields.map part.value :=
    hvalues.trans (List.map_congr_left fun field hf => ((hvalue field).trans (if_pos hf)).symm)
  refine ⟨part, fun key' => ?_⟩
  rw [mem_keysOf_iff]
  constructor
  · rintro ⟨fields', hfields', hvalues', hnull'⟩
    -- a key has no null part, so its fields are among those that were kept
    have hsub : fields' ⊆ fields := by
      intro field hfield
      by_contra hout
      refine hnull' (hvalues' ▸ List.mem_map.2 ⟨field, hfield, ?_⟩)
      rw [hvalue, if_neg hout]
    obtain ⟨rfl, hindex⟩ := Prod.mk.inj (eq_of_uniqueKeys_subset hfields' hfields hsub)
    cases key
    cases key'
    exact congrArg₂ UniqueKey.mk hindex (hvalues'.trans hsame.symm)
  · rintro rfl
    exact ⟨fields, hfields, hsame, hnull⟩

end Kind

namespace Table

/-! ### Histories -/

/-- A change of a table: an item is put in, or one is taken out. -/
inductive Change where
  | put (item : Item)
  | take (id : ItemId)

/-- The item that is put in. -/
def Change.item? : Change → Option Item
  | put item => some item
  | take _ => none

def change (t : Table) : Change → Table
  | .put item => t.insert item
  | .take id => t.erase id

/-- The table that changes make of an empty one. -/
def made (kind : Kind) (changes : List Change) : Table := changes.foldl change (.empty kind)

/-- The last item that was put in among those that pass a test. -/
def latest? (p : Item → Bool) (changes : List Change) : Option ItemId :=
  ((changes.filterMap Change.item?).filter p).getLast?.map (·.id)

variable {kind : Kind} {changes : List Change} {p : Item → Bool} {item : Item} {id : ItemId}

theorem made_append (kind : Kind) (changes : List Change) (c : Change) :
    made kind (changes ++ [c]) = (made kind changes).change c := by
  unfold made
  rw [List.foldl_append, List.foldl_cons, List.foldl_nil]

theorem built_made (kind : Kind) (changes : List Change) : Built kind (made kind changes) := by
  induction changes using List.reverseRecOn with
  | nil => exact .empty
  | append_singleton changes c ih =>
    rw [made_append]
    cases c with
    | put item => exact ih.insert item
    | take id => exact ih.erase id

theorem Built.kind_eq {t : Table} (h : Built kind t) : t.kind = kind := by
  induction h with
  | empty => rfl
  | insert _ item ih => exact (kind_insert ..).trans ih
  | erase _ id ih => exact (kind_erase ..).trans ih

theorem latest?_append_put (p : Item → Bool) (changes : List Change) (item : Item) :
    latest? p (changes ++ [.put item]) = if p item then some item.id else latest? p changes := by
  unfold latest?
  rw [List.filterMap_append, List.filter_append, List.getLast?_append]
  by_cases hp : p item <;> simp [Change.item?, hp]

theorem latest?_append_take (p : Item → Bool) (changes : List Change) (id : ItemId) :
    latest? p (changes ++ [.take id]) = latest? p changes := by
  unfold latest?
  rw [List.filterMap_append, List.filter_append, List.getLast?_append]
  rfl

/-! ### What an index knows -/

/-- An index of the items that pass a test: whoever is put in takes the place of the one before. -/
structure Indexes (kind : Kind) (p : Item → Bool) (find : Table → Option ItemId) : Prop where
  empty : find (.empty kind) = none
  insert : ∀ ⦃t⦄, Built kind t → ∀ item, find (t.insert item) =
    if p item then some item.id else (find t).filter (· ≠ item.id)
  erase : ∀ ⦃t⦄, Built kind t → ∀ id, find (t.erase id) = (find t).filter (· ≠ id)

/-- It knows the item that was put in last, if that is still there and still passes the test. -/
theorem Indexes.eq_latest? {find : Table → Option ItemId} (h : Indexes kind p find)
    (changes : List Change) : find (made kind changes) =
      (latest? p changes).filter fun id => ((made kind changes).get? id).any p := by
  induction changes using List.reverseRecOn with
  | nil => exact h.empty
  | append_singleton changes c ih =>
    have ht := built_made kind changes
    rw [made_append]
    cases c with
    | put item =>
      rw [latest?_append_put]
      refine (h.insert ht item).trans ?_
      by_cases hp : p item
      · rw [if_pos hp, if_pos hp, Option.filter_some, if_pos]
        rw [change, get?_insert, if_pos rfl]
        exact hp
      · rw [if_neg hp, if_neg hp, ih, Option.filter_filter]
        congr 1
        funext id
        rw [change, get?_insert]
        by_cases hid : id = item.id <;> simp [hid, hp]
    | take id =>
      rw [latest?_append_take]
      refine (h.erase ht id).trans ?_
      rw [ih, Option.filter_filter]
      congr 1
      funext id'
      rw [change, get?_erase]
      by_cases hid : id' = id <;> simp [hid]

theorem Indexes.eq_some_iff {find : Table → Option ItemId} (h : Indexes kind p find) :
    find (made kind changes) = some id ↔ latest? p changes = some id ∧
      ∃ item, (made kind changes).get? id = some item ∧ p item = true := by
  rw [h.eq_latest?, Option.filter_eq_some_iff, Option.any_eq_true]

/-- Whether an item is live and has a unique key. -/
def takes (kind : Kind) (key : UniqueKey) (item : Item) : Bool :=
  !item.removed && decide (key ∈ kind.keysOf item.content)

/-- Whether an item stands for a row. -/
def standsFor (d : DbId) (item : Item) : Bool := item.dbId = some d

theorem takes_iff {key : UniqueKey} :
    takes kind key item = true ↔ item.removed = false ∧ key ∈ kind.keysOf item.content := by
  unfold takes
  simp

theorem indexes_keys (kind : Kind) (key : UniqueKey) :
    Indexes kind (takes kind key) fun t => t.keys.holder? key where
  empty := rfl
  insert t ht item := by
    refine (holder?_insert ht.keysSound item key).trans (if_congr ?_ rfl rfl)
    rw [mem_keysOf_iff, ht.kind_eq, takes_iff]
  erase t ht id := holder?_erase ht.keysSound id key

theorem indexes_bindings (kind : Kind) (d : DbId) :
    Indexes kind (standsFor d) fun t => t.itemOfRow? d where
  empty := rfl
  insert t ht item := by
    refine (itemOfRow?_insert ht.sound item d).trans (if_congr ?_ rfl rfl)
    exact decide_eq_true_iff.symm
  erase t ht id := itemOfRow?_erase ht.sound id d

/-! ### Scans -/

theorem mem_live_iff {t : Table} :
    item ∈ t.live ↔ t.get? item.id = some item ∧ item.removed = false := by
  unfold live
  rw [List.mem_filter, mem_all_iff, Bool.not_eq_true']

/-- What the look-ups find has the property that was looked for. -/
structure FindsTrue (t : Table) : Prop where
  live : ∀ r id, t.liveMatch? r = some id →
    ∃ item ∈ t.live, item.id = id ∧ t.kind.SharesKey item.content r
  collision : ∀ r exclude key, t.collision? r exclude = some key → key ∈ t.kind.keysOf r ∧
    ∃ item ∈ t.live, some item.id ≠ exclude ∧ key ∈ t.kind.keysOf item.content
  row : ∀ d id, t.itemOfRow? d = some id → ∃ item ∈ t.all, item.id = id ∧ item.dbId = some d

/-- The look-ups find something whenever a scan of the items does. -/
structure ScansEqual (t : Table) : Prop where
  live : ∀ r, (t.liveMatch? r).isSome = true ↔ ∃ item ∈ t.live, t.kind.SharesKey item.content r
  collision : ∀ r exclude, (t.collision? r exclude).isSome = true ↔
    ∃ item ∈ t.live, some item.id ≠ exclude ∧ t.kind.SharesKey item.content r
  row : ∀ d, (t.itemOfRow? d).isSome = true ↔ ∃ item ∈ t.all, item.dbId = some d

theorem findsTrue {t : Table} (hs : t.Sound) (hk : t.KeysSound) : t.FindsTrue where
  live r id h := by
    obtain ⟨item, hitem, hlive, hshares⟩ := liveMatch?_spec hk h
    obtain rfl := t.id_eq hitem
    exact ⟨item, mem_live_iff.2 ⟨hitem, hlive⟩, rfl, hshares⟩
  collision r exclude key h := by
    unfold collision? at h
    have htest := List.find?_some h
    obtain ⟨id, hid, hne⟩ := (Option.any_eq_true ..).1 htest
    obtain ⟨item, hitem, hkey⟩ := hk hid
    obtain ⟨hlive, hkey⟩ := mem_keysOf_iff.1 hkey
    obtain rfl := t.id_eq hitem
    exact ⟨List.mem_of_find?_eq_some h, item, mem_live_iff.2 ⟨hitem, hlive⟩, of_decide_eq_true hne, hkey⟩
  row d id h := by
    obtain ⟨item, hitem, hd⟩ := hs h
    obtain rfl := t.id_eq hitem
    exact ⟨item, mem_all_iff.2 hitem, rfl, hd⟩

/-- An exact index of keys misses no live item, and the bindings may miss an item only if another one
is known for its row. -/
theorem scansEqual_iff {t : Table} (hs : t.Sound) (hk : t.KeysSound) :
    t.ScansEqual ↔ t.KeysExact ∧ ∀ item ∈ t.all, ∀ d, item.dbId = some d →
      ∃ id, t.itemOfRow? d = some id := by
  have htrue := findsTrue hs hk
  constructor
  · intro h
    refine ⟨hk.exact fun item hitem key hkey => ?_, fun item hitem d hd =>
      Option.isSome_iff_exists.1 ((h.row d).2 ⟨item, hitem, hd⟩)⟩
    obtain ⟨hlive, hmem⟩ := mem_keysOf_iff.1 hkey
    obtain ⟨r, hr⟩ := Kind.exists_keysOf_eq_singleton hmem
    by_contra hne
    -- nothing collides with a record that has only this key if its holder is excluded
    have hnone : t.collision? r (t.keys.holder? key) = none := by
      rw [collision?_eq_none_iff]
      intro key' hkey' id hid
      rw [← (hr key').1 hkey', hid]
    have hsome := (h.collision r (t.keys.holder? key)).2 ⟨item,
      mem_live_iff.2 ⟨mem_all_iff.1 hitem, hlive⟩, Ne.symm hne, key, hmem, (hr key).2 rfl⟩
    rw [hnone] at hsome
    cases hsome
  · rintro ⟨hexact, hrows⟩
    constructor
    case live =>
      intro r
      constructor
      · intro h
        obtain ⟨id, hid⟩ := Option.isSome_iff_exists.1 h
        obtain ⟨item, hitem, -, hshares⟩ := htrue.live r id hid
        exact ⟨item, hitem, hshares⟩
      · rintro ⟨item, hitem, key, hkey, hkey'⟩
        obtain ⟨hget, hlive⟩ := mem_live_iff.1 hitem
        have hholder := hexact.complete item.id hget key (mem_keysOf_iff.2 ⟨hlive, hkey⟩)
        unfold liveMatch?
        rw [List.findSome?_isSome_iff]
        exact ⟨key, hkey', Option.isSome_iff_exists.2 ⟨_, hholder⟩⟩
    case collision =>
      intro r exclude
      constructor
      · intro h
        obtain ⟨key, hcol⟩ := Option.isSome_iff_exists.1 h
        obtain ⟨hkey, item, hitem, hne, hkey'⟩ := htrue.collision r exclude key hcol
        exact ⟨item, hitem, hne, key, hkey', hkey⟩
      · rintro ⟨item, hitem, hne, key, hkey, hkey'⟩
        obtain ⟨hget, hlive⟩ := mem_live_iff.1 hitem
        have hholder := hexact.complete item.id hget key (mem_keysOf_iff.2 ⟨hlive, hkey⟩)
        rw [Option.isSome_iff_ne_none]
        exact fun hnone => hne (collision?_eq_none_iff.1 hnone key hkey' _ hholder)
    case row =>
      intro d
      constructor
      · intro h
        obtain ⟨id, hid⟩ := Option.isSome_iff_exists.1 h
        obtain ⟨item, hitem, -, hd⟩ := htrue.row d id hid
        exact ⟨item, hitem, hd⟩
      · rintro ⟨item, hitem, hd⟩
        exact Option.isSome_iff_exists.2 (hrows item hitem d hd)

/-! ### Look-ups after a history -/

/-- No item that is left is overlooked: each live one was the last to be put in with each of its keys, and
for the row of each item the last one that was put in with it is left as well. -/
structure UpToDate (kind : Kind) (changes : List Change) : Prop where
  keys : ∀ item ∈ (made kind changes).live, ∀ key ∈ kind.keysOf item.content,
    latest? (takes kind key) changes = some item.id
  rows : ∀ item ∈ (made kind changes).all, ∀ d, item.dbId = some d →
    ∃ other ∈ (made kind changes).all, other.dbId = some d ∧
      latest? (standsFor d) changes = some other.id

/-- Whatever was put into a table and taken out again, what the look-ups find is right; and they agree
with a scan of the items, for all records and rows, exactly if no item that is left is overlooked. -/
theorem lookUps_made (kind : Kind) (changes : List Change) :
    (made kind changes).FindsTrue ∧ ((made kind changes).ScansEqual ↔ UpToDate kind changes) := by
  have ht := built_made kind changes
  refine ⟨findsTrue ht.sound ht.keysSound, (scansEqual_iff ht.sound ht.keysSound).trans ?_⟩
  constructor
  · rintro ⟨hexact, hrows⟩
    constructor
    case keys =>
      intro item hitem key hkey
      obtain ⟨hget, hlive⟩ := mem_live_iff.1 hitem
      have hholder := hexact.complete item.id hget key
        (mem_keysOf_iff.2 ⟨hlive, by rwa [ht.kind_eq]⟩)
      exact ((indexes_keys kind key).eq_some_iff.1 hholder).1
    case rows =>
      intro item hitem d hd
      obtain ⟨id, hid⟩ := hrows item hitem d hd
      obtain ⟨hlatest, other, hother, hd'⟩ := (indexes_bindings kind d).eq_some_iff.1 hid
      obtain rfl := (made kind changes).id_eq hother
      exact ⟨other, mem_all_iff.2 hother, of_decide_eq_true hd', hlatest⟩
  · intro h
    constructor
    · refine ht.keysSound.exact fun item hitem key hkey => ?_
      obtain ⟨hlive, hkey⟩ := mem_keysOf_iff.1 hkey
      rw [ht.kind_eq] at hkey
      have hget := mem_all_iff.1 hitem
      exact (indexes_keys kind key).eq_some_iff.2
        ⟨h.keys item (mem_live_iff.2 ⟨hget, hlive⟩) key hkey, item, hget, takes_iff.2 ⟨hlive, hkey⟩⟩
    · intro item hitem d hd
      obtain ⟨other, hother, hd', hlatest⟩ := h.rows item hitem d hd
      exact ⟨other.id, (indexes_bindings kind d).eq_some_iff.2
        ⟨hlatest, other, mem_all_iff.1 hother, decide_eq_true hd'⟩⟩

/-- An item takes the key and the row of another one over, and is taken out again. -/
def takenOver : List Change :=
  [.put (.loaded ⟨1⟩ .alternative (alternativeRow 1 "base")),
    .put (.loaded ⟨2⟩ .alternative (alternativeRow 1 "base")), .take ⟨2⟩]

/-- The other one is left, live and with its key and its row, but none of the look-ups finds it. -/
theorem overlooked_of_takenOver :
    ¬ (made .alternative takenOver).ScansEqual ∧
      (made .alternative takenOver).live = [.loaded ⟨1⟩ .alternative (alternativeRow 1 "base")] ∧
      (made .alternative takenOver).liveMatch? (.ofList [("name", .text "base")]) = none ∧
      (made .alternative takenOver).collision? (.ofList [("name", .text "base")]) none = none ∧
      (made .alternative takenOver).itemOfRow? ⟨1⟩ = none := by
  have hlive : (made .alternative takenOver).live =
      [.loaded ⟨1⟩ .alternative (alternativeRow 1 "base")] := by decide +kernel
  have hrow : (made .alternative takenOver).itemOfRow? ⟨1⟩ = none := by decide +kernel
  refine ⟨fun h => ?_, hlive, by decide +kernel, by decide +kernel, hrow⟩
  have hmem : Item.loaded ⟨1⟩ .alternative (alternativeRow 1 "base") ∈
      (made .alternative takenOver).live := hlive ▸ List.mem_singleton_self _
  have hfound := (h.row ⟨1⟩).2 ⟨_, (List.mem_filter.1 hmem).1, by decide +kernel⟩
  rw [hrow] at hfound
  cases hfound

end Table

end StagedEdits
