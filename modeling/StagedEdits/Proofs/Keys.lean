import StagedEdits.Proofs.Session

/-!
# The key index of a table

The index is *sound* when the holder of a key is a live item with that key, and *exact* when every
live item moreover holds all of its keys.  Like that of the bindings, soundness survives every update
(`Table.KeysSound.insert`), while exactness can be lost when an item takes a key over from another one
(`Table.KeysExact.insert`).  With an exact index no two live items share a key.
-/

namespace StagedEdits

namespace Kind

variable {k : Kind} {r r' : Record}

theorem mem_keysOf_iff {key : UniqueKey} :
    key ∈ k.keysOf r ↔ ∃ fields, (fields, key.index) ∈ k.uniqueKeys.zipIdx ∧
      key.values = fields.map r.value ∧ .null ∉ key.values := by
  unfold keysOf
  rw [List.mem_filterMap]
  constructor
  · rintro ⟨⟨fields, index⟩, hmem, hkey⟩
    dsimp only at hkey
    split at hkey
    next => cases hkey
    next hnull =>
      cases hkey
      exact ⟨fields, hmem, rfl, hnull⟩
  · rintro ⟨fields, hmem, hvalues, hnull⟩
    refine ⟨(fields, key.index), hmem, ?_⟩
    dsimp only
    rw [← hvalues, if_neg hnull]

/-- Two records of a kind have a unique key in common. -/
def SharesKey (k : Kind) (r r' : Record) : Prop := ∃ key ∈ k.keysOf r, key ∈ k.keysOf r'

instance : Decidable (k.SharesKey r r') :=
  inferInstanceAs (Decidable (∃ key ∈ k.keysOf r, key ∈ k.keysOf r'))

theorem SharesKey.symm (h : k.SharesKey r r') : k.SharesKey r' r :=
  let ⟨key, hkey, hkey'⟩ := h
  ⟨key, hkey', hkey⟩

end Kind

namespace KeyIndex

/-- Giving a key up takes it from the item that gives it up only. -/
theorem holder?_release_eq_filter (ix : KeyIndex) (id : ItemId) (key key' : UniqueKey) :
    (ix.release id key').holder? key =
      if key = key' then (ix.holder? key).filter (· ≠ id) else ix.holder? key := by
  rw [holder?_release]
  by_cases hk : key = key'
  · subst hk
    rw [if_pos rfl]
    cases hh : ix.holder? key with
    | none => simp
    | some id' => by_cases hid : id' = id <;> simp [Option.filter_some, hid]
  · rw [if_neg hk, if_neg fun h => hk h.1]

/-- An item gives up all keys of a list. -/
theorem holder?_foldl_release (id : ItemId) (keys : List UniqueKey) (ix : KeyIndex) (key : UniqueKey) :
    (keys.foldl (fun ix key => ix.release id key) ix).holder? key =
      if key ∈ keys then (ix.holder? key).filter (· ≠ id) else ix.holder? key := by
  induction keys generalizing ix with
  | nil => rw [if_neg List.not_mem_nil, List.foldl_nil]
  | cons key' keys ih =>
    rw [List.foldl_cons, ih, holder?_release_eq_filter]
    by_cases hk : key = key'
    · rw [if_pos hk, if_pos (List.mem_cons.2 (.inl hk)), Option.filter_filter]
      simp only [Bool.and_self, ite_self]
    · rw [if_neg hk]
      exact if_congr (by simp [hk]) rfl rfl

/-- An item takes all keys of a list. -/
theorem holder?_foldl_hold (id : ItemId) (keys : List UniqueKey) (ix : KeyIndex) (key : UniqueKey) :
    (keys.foldl (fun ix key => ix.hold id key) ix).holder? key =
      if key ∈ keys then some id else ix.holder? key := by
  induction keys generalizing ix with
  | nil => rw [if_neg List.not_mem_nil, List.foldl_nil]
  | cons key' keys ih =>
    rw [List.foldl_cons, ih, holder?_hold]
    by_cases hk : key = key'
    · rw [if_pos hk, if_pos (List.mem_cons.2 (.inl hk)), ite_self]
    · rw [if_neg hk]
      exact if_congr (by simp [hk]) rfl rfl

end KeyIndex

namespace Table

variable {t : Table} {item : Item}

theorem mem_keysOf_iff {key : UniqueKey} :
    key ∈ t.keysOf item ↔ item.removed = false ∧ key ∈ t.kind.keysOf item.content := by
  unfold keysOf
  cases item.removed <;> simp

/-- The holder of a key is a live item that has it. -/
def KeysSound (t : Table) : Prop :=
  ∀ ⦃key : UniqueKey⦄ ⦃id : ItemId⦄, t.keys.holder? key = some id →
    ∃ item, t.get? id = some item ∧ key ∈ t.keysOf item

/-- The item `id`, if it is there, holds all of its keys. -/
def Holds (t : Table) (id : ItemId) : Prop :=
  ∀ ⦃item⦄, t.get? id = some item → ∀ key ∈ t.keysOf item, t.keys.holder? key = some id

/-- The holders of a key are the live items that have it. -/
structure KeysExact (t : Table) : Prop where
  sound : t.KeysSound
  complete : ∀ id, t.Holds id

theorem keysSound_empty (kind : Kind) : (empty kind).KeysSound := fun _ _ h => nomatch h

theorem keysExact_empty (kind : Kind) : (empty kind).KeysExact :=
  ⟨keysSound_empty kind, fun _ _ h => nomatch h⟩

/-- An item that is taken out holds no key any more. -/
theorem holder?_erase (h : t.KeysSound) (id : ItemId) (key : UniqueKey) :
    (t.erase id).keys.holder? key = (t.keys.holder? key).filter (· ≠ id) := by
  have hsame : (∀ item, t.get? id = some item → key ∉ t.keysOf item) →
      (t.keys.holder? key).filter (· ≠ id) = t.keys.holder? key := by
    intro hnot
    cases hh : t.keys.holder? key with
    | none => rfl
    | some id' =>
      rw [Option.filter_some, if_pos]
      refine decide_eq_true fun heq => ?_
      obtain ⟨item, hitem, hkey⟩ := h hh
      exact hnot item (heq ▸ hitem) hkey
  unfold erase
  split
  next hnone =>
    refine (hsame fun item hitem => ?_).symm
    rw [hnone] at hitem
    cases hitem
  next item hitem =>
    dsimp only
    rw [KeyIndex.holder?_foldl_release]
    split
    next => rfl
    next hnot =>
      refine (hsame fun x hx => ?_).symm
      exact Option.some.inj (hitem.symm.trans hx) ▸ hnot

theorem keysOf_erase (t : Table) (id : ItemId) (item : Item) :
    (t.erase id).keysOf item = t.keysOf item := by
  unfold keysOf
  rw [kind_erase]

theorem keysOf_insert (t : Table) (new item : Item) : (t.insert new).keysOf item = t.keysOf item := by
  unfold keysOf
  rw [kind_insert]

/-- An item that is put in holds its keys. -/
theorem holder?_insert (h : t.KeysSound) (item : Item) (key : UniqueKey) :
    (t.insert item).keys.holder? key =
      if key ∈ t.keysOf item then some item.id else (t.keys.holder? key).filter (· ≠ item.id) := by
  have hhold : (t.insert item).keys.holder? key =
      (((t.erase item.id).keysOf item).foldl (fun ix key => ix.hold item.id key)
        (t.erase item.id).keys).holder? key := rfl
  rw [hhold, KeyIndex.holder?_foldl_hold, keysOf_erase, holder?_erase h]

theorem KeysSound.erase (h : t.KeysSound) (id : ItemId) : (t.erase id).KeysSound := by
  intro key id' hh
  rw [holder?_erase h, Option.filter_eq_some_iff] at hh
  obtain ⟨item, hitem, hkey⟩ := h hh.1
  refine ⟨item, ?_, by rwa [keysOf_erase]⟩
  rw [get?_erase, if_neg (of_decide_eq_true hh.2)]
  exact hitem

theorem KeysSound.insert (h : t.KeysSound) (item : Item) : (t.insert item).KeysSound := by
  intro key id hh
  rw [holder?_insert h] at hh
  split at hh
  next hkey =>
    obtain rfl := Option.some.inj hh
    exact ⟨item, by rw [get?_insert, if_pos rfl], by rwa [keysOf_insert]⟩
  next =>
    rw [Option.filter_eq_some_iff] at hh
    obtain ⟨old, hold, hkey⟩ := h hh.1
    refine ⟨old, ?_, by rwa [keysOf_insert]⟩
    rw [get?_insert, if_neg (of_decide_eq_true hh.2)]
    exact hold

theorem Holds.erase (hs : t.KeysSound) {id : ItemId} (h : t.Holds id) (id' : ItemId) :
    (t.erase id').Holds id := by
  intro item hitem key hkey
  rw [get?_erase] at hitem
  rw [keysOf_erase] at hkey
  split at hitem
  next => cases hitem
  next hne =>
    rw [holder?_erase hs, h hitem key hkey, Option.filter_some, if_pos (decide_eq_true hne)]

/-- An item that is put in holds its keys, whoever held them before. -/
theorem holds_insert_self (hs : t.KeysSound) (item : Item) : (t.insert item).Holds item.id := by
  intro x hx key hkey
  rw [get?_insert, if_pos rfl] at hx
  obtain rfl := Option.some.inj hx
  rw [keysOf_insert] at hkey
  rw [holder?_insert hs, if_pos hkey]

/-- An item goes on holding its keys if another one is put in that has none of them. -/
theorem Holds.insert (hs : t.KeysSound) {id : ItemId} (h : t.Holds id) (hne : id ≠ item.id)
    (hapart : ∀ x, t.get? id = some x → ∀ key ∈ t.keysOf x, key ∉ t.keysOf item) :
    (t.insert item).Holds id := by
  intro x hx key hkey
  rw [get?_insert, if_neg hne] at hx
  rw [keysOf_insert] at hkey
  rw [holder?_insert hs, if_neg (hapart x hx key hkey), h hx key hkey, Option.filter_some,
    if_pos (decide_eq_true hne)]

theorem KeysExact.erase (h : t.KeysExact) (id : ItemId) : (t.erase id).KeysExact :=
  ⟨h.sound.erase id, fun id' => (h.complete id').erase h.sound id⟩

/-- An item may be put in if no other item has a key of it. -/
theorem KeysExact.insert (h : t.KeysExact)
    (hfree : ∀ key ∈ t.keysOf item, ∀ id, t.keys.holder? key = some id → id = item.id) :
    (t.insert item).KeysExact := by
  refine ⟨h.sound.insert item, fun id => ?_⟩
  by_cases hid : id = item.id
  · exact hid ▸ holds_insert_self h.sound item
  · exact (h.complete id).insert h.sound hid fun x hx key hkey hmem =>
      hid (hfree key hmem id (h.complete id hx key hkey))

/-- With an exact index live items share no keys. -/
theorem KeysExact.eq_of_sharesKey (h : t.KeysExact) {i j : ItemId} {a b : Item}
    (ha : t.get? i = some a) (hb : t.get? j = some b) (hla : a.removed = false)
    (hlb : b.removed = false) (hshares : t.kind.SharesKey a.content b.content) : i = j := by
  obtain ⟨key, hkey, hkey'⟩ := hshares
  have hi := h.complete i ha key (mem_keysOf_iff.2 ⟨hla, hkey⟩)
  have hj := h.complete j hb key (mem_keysOf_iff.2 ⟨hlb, hkey'⟩)
  exact Option.some.inj (hi.symm.trans hj)

/-- A sound index is exact if each of the items that are listed holds its keys. -/
theorem KeysSound.exact (h : t.KeysSound)
    (hall : ∀ item ∈ t.all, ∀ key ∈ t.keysOf item, t.keys.holder? key = some item.id) :
    t.KeysExact := by
  refine ⟨h, fun id item hitem key hkey => ?_⟩
  obtain rfl := t.id_eq hitem
  exact hall item (mem_all_iff.2 hitem) key hkey

/-- A key of a record collides if a live item other than the excluded one holds it. -/
theorem collision?_eq_none_iff {r : Record} {exclude : Option ItemId} :
    t.collision? r exclude = none ↔
      ∀ key ∈ t.kind.keysOf r, ∀ id, t.keys.holder? key = some id → some id = exclude := by
  unfold collision?
  rw [List.find?_eq_none]
  refine forall₂_congr fun key _ => ?_
  cases t.keys.holder? key <;> simp

end Table

namespace Session

variable {s : Session}

theorem collision?_eq (s : Session) (kind : Kind) (r : Record) (exclude : Option ItemId) :
    s.collision? kind r exclude = (s.table kind).collision? r exclude := by
  unfold collision? table
  cases s.table? kind with
  | none =>
    refine (Table.collision?_eq_none_iff.2 fun key _ id hid => ?_).symm
    cases hid
  | some t => rfl

/-- No two live items of a kind have a unique key in common. -/
def KeysApart (s : Session) : Prop :=
  ∀ ⦃kind : Kind⦄ ⦃i j : ItemId⦄ ⦃a b : Item⦄, s.item? ⟨kind, i⟩ = some a → s.item? ⟨kind, j⟩ = some b →
    a.removed = false → b.removed = false →
    ∀ key ∈ kind.keysOf a.content, key ∈ kind.keysOf b.content → i = j

/-- What holds of all pairs of items of a kind can be checked kind by kind. -/
theorem forall_pair_iff {p : Kind → ItemId → ItemId → Item → Item → Prop} :
    (∀ ⦃kind i j a b⦄, s.item? ⟨kind, i⟩ = some a → s.item? ⟨kind, j⟩ = some b → p kind i j a b) ↔
      ∀ kind ∈ Kind.all, ∀ a ∈ s.all kind, ∀ b ∈ s.all kind, p kind a.id b.id a b := by
  constructor
  · exact fun h kind _ a ha b hb => h (mem_all_iff.1 ha) (mem_all_iff.1 hb)
  · intro h kind i j a b ha hb
    obtain rfl : a.id = i := item_id ha
    obtain rfl : b.id = j := item_id hb
    exact h kind kind.mem_all a (mem_all_iff.2 ha) b (mem_all_iff.2 hb)

instance : Decidable s.KeysApart :=
  decidable_of_iff _ (forall_pair_iff (s := s) (p := fun kind i j a b => a.removed = false →
    b.removed = false → ∀ key ∈ kind.keysOf a.content, key ∈ kind.keysOf b.content → i = j)).symm

end Session

end StagedEdits
