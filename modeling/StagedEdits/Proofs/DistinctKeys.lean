import StagedEdits.Proofs.RemovalOrder

/-!
# Keys that stay apart

Additions and updates look whether a live item has a key of theirs; so does a restoration, for every item
that it takes along, but at the time when the item that it was removed for is restored.  With exact
indices no live items share a key, and all this keeps the indices exact, if no two removed items that
share a key were removed for the same item (`Session.SourcesApart`).

* `Session.KeysExact.restore`, `Session.KeysExact.update`, `Session.KeysExact.add`: the edits.
* `Session.KeysExact.committed`, `Session.RowsApart.keysExact_rollBack`: writing and discarding them.
-/

namespace StagedEdits

namespace Kind

variable {k : Kind} {r r' : Record}

/-- Items that refer to items that refer to others have all their references in each unique key. -/
theorem references_subset_uniqueKeys {target : Kind} (h : target ∈ k.referenced)
    (hdeep : target.references ≠ []) : ∀ fields ∈ k.uniqueKeys, ∀ e ∈ k.references, e.1 ∈ fields := by
  revert h hdeep
  cases k <;> cases target <;> decide

/-- Records that share a unique key have the same values in the fields of one. -/
theorem SharesKey.exists_fields (h : k.SharesKey r r') :
    ∃ fields ∈ k.uniqueKeys, ∀ field ∈ fields, r.value field = r'.value field := by
  obtain ⟨key, hkey, hkey'⟩ := h
  obtain ⟨fields, hmem, hvalues, -⟩ := mem_keysOf_iff.1 hkey
  obtain ⟨fields', hmem', hvalues', -⟩ := mem_keysOf_iff.1 hkey'
  have hget : k.uniqueKeys[key.index]? = some fields := List.mem_zipIdx_iff_getElem?.1 hmem
  have hget' : k.uniqueKeys[key.index]? = some fields' := List.mem_zipIdx_iff_getElem?.1 hmem'
  obtain rfl := Option.some.inj (hget.symm.trans hget')
  exact ⟨fields, List.mem_of_getElem? hget, List.map_inj_left.1 (hvalues.symm.trans hvalues')⟩

end Kind

/-- Of two items that share a key, one refers to what the other refers to, as far as that refers to
others in turn. -/
theorem Item.mem_references_of_sharesKey {a b : Item} (hkind : b.kind = a.kind)
    (h : a.kind.SharesKey a.content b.content) {target : ItemRef} (hmem : target ∈ a.references)
    (hdeep : target.kind.references ≠ []) : target ∈ b.references := by
  obtain ⟨field, hfield, hget⟩ := mem_references_iff.1 hmem
  obtain ⟨fields, hfields, hvalues⟩ := h.exists_fields
  have hin := Kind.references_subset_uniqueKeys (List.mem_map.2 ⟨_, hfield, rfl⟩) hdeep fields hfields
    _ hfield
  refine mem_references_iff.2 ⟨field, hkind ▸ hfield, ?_⟩
  have hvalue := hvalues field hin
  unfold Record.value at hvalue
  rw [hget] at hvalue
  cases hb : b.content.get? field with
  | none => rw [hb] at hvalue; cases hvalue
  | some v => rw [hb] at hvalue; exact congrArg some hvalue.symm

/-! ### Rolling a table back -/

namespace Table

variable {o t : Table}

/-- On the way of rolling table `o` back, with the items `done` rolled back so far: these hold all of
their keys, also those that others had taken in the meantime. -/
structure Unwinding (o : Table) (done : List ItemId) (t : Table) : Prop where
  kind_eq : t.kind = o.kind
  sound : t.KeysSound
  get? : ∀ id, t.get? id = if id ∈ done then (o.get? id).bind Item.rolledBack? else o.get? id
  holds : ∀ id ∈ done, t.Holds id

/-- No two items that are left after rolling back share a key. -/
def RollsBackApart (o : Table) : Prop :=
  ∀ ⦃i j a b a' b'⦄, o.get? i = some a → o.get? j = some b → a.rolledBack? = some a' →
    b.rolledBack? = some b' → ∀ key ∈ o.keysOf a', key ∈ o.keysOf b' → i = j

/-- The item that is rolled back gets its keys back. -/
theorem KeysSound.holds_rollBackItem (h : t.KeysSound) (id : ItemId) : (t.rollBackItem id).Holds id := by
  unfold rollBackItem
  split
  next hnone =>
    intro item hi
    rw [hnone] at hi
    cases hi
  next item hitem =>
    split
    next =>
      intro x hx
      rw [get?_erase, if_pos rfl] at hx
      cases hx
    next b hb =>
      have hbid : b.id = id := (congrArg ItemRef.id (Item.ref_rolledBack hb)).trans (t.id_eq hitem)
      exact hbid ▸ holds_insert_self h b

theorem KeysSound.rollBackItem (h : t.KeysSound) (id : ItemId) : (t.rollBackItem id).KeysSound := by
  unfold Table.rollBackItem
  split
  next => exact h
  next =>
    split
    next => exact h.erase id
    next b _ => exact h.insert b

/-- Rolling an item back takes no keys from the items that were rolled back before. -/
theorem Unwinding.holds_rollBackItem (hapart : o.RollsBackApart) {done : List ItemId}
    (h : o.Unwinding done t) {id id' : ItemId} (hid : id ∉ done) (hid' : id' ∈ done) :
    (t.rollBackItem id).Holds id' := by
  have hne : id' ≠ id := fun he => hid (he ▸ hid')
  have hkeys : ∀ item, t.keysOf item = o.keysOf item := fun item => by
    unfold keysOf
    rw [h.kind_eq]
  unfold rollBackItem
  split
  next => exact h.holds id' hid'
  next item hitem =>
    split
    next => exact (h.holds id' hid').erase h.sound id
    next b hb =>
      have hbid : b.id = id := (congrArg ItemRef.id (Item.ref_rolledBack hb)).trans (t.id_eq hitem)
      refine (h.holds id' hid').insert h.sound (hbid ▸ hne) fun x hx key hkey hmem => ?_
      rw [h.get?, if_pos hid'] at hx
      rw [h.get?, if_neg hid] at hitem
      obtain ⟨a, ha, hx⟩ := Option.bind_eq_some_iff.1 hx
      rw [hkeys] at hkey hmem
      exact hne (hapart ha hitem hx hb key hkey hmem)

theorem Unwinding.step (hcons : ∀ id item, o.get? id = some item → item.Consistent)
    (hapart : o.RollsBackApart) {done : List ItemId} (h : o.Unwinding done t) {id : ItemId}
    (hid : id ∉ done) : o.Unwinding (id :: done) (t.rollBackItem id) where
  kind_eq := (kind_rollBackItem t id).trans h.kind_eq
  sound := h.sound.rollBackItem id
  get? id' := by
    have hat : t.get? id = o.get? id := (h.get? id).trans (if_neg hid)
    rw [get?_rollBackItem (fun item hi => hcons id item (hat.symm.trans hi)), hat]
    by_cases he : id' = id
    · rw [if_pos he, if_pos (he ▸ List.mem_cons_self ..), he]
    · rw [if_neg he, h.get?]
      exact if_congr (by simp [he]) rfl rfl
  holds id' hid' := by
    rcases List.mem_cons.1 hid' with rfl | hid'
    · exact h.sound.holds_rollBackItem id'
    · exact h.holds_rollBackItem hapart hid hid'

/-- Rolling back makes the index exact if the items that are left share no keys. -/
theorem keysExact_rollBack (hsound : o.KeysSound)
    (hcons : ∀ id item, o.get? id = some item → item.Consistent) (hapart : o.RollsBackApart) :
    o.rollBack.KeysExact := by
  have hstart : o.Unwinding [] o :=
    ⟨rfl, hsound, fun id => (if_neg List.not_mem_nil).symm, fun _ h => absurd h List.not_mem_nil⟩
  have hend := foldl_of_nodup (f := rollBackItem) (l := o.ids) o.items.nodup_keys
    (fun _ _ _ _ hid h => h.step hcons hapart hid) hstart
  rw [rollBack_eq]
  refine ⟨hend.sound, fun id => ?_⟩
  by_cases hid : id ∈ o.ids
  · exact hend.holds id (List.mem_reverse.2 hid)
  · intro item hi
    rw [hend.get?, if_neg (by simp [hid])] at hi
    exact absurd (mem_ids_iff.2 ⟨item, hi⟩) hid

theorem KeysExact.dropRemoved (h : t.KeysExact) : t.dropRemoved.KeysExact := by
  unfold Table.dropRemoved
  generalize t.all.filter Item.removed = items
  induction items generalizing t with
  | nil => exact h
  | cons item items ih => exact ih (h.erase item.id)

end Table

namespace Session

variable {I : Item → Prop} {s s' : Session} {r : ItemRef}

/-! ### Exact indices -/

/-- The key indices of all tables are exact. -/
def KeysExact (s : Session) : Prop := ∀ kind, (s.table kind).KeysExact

/-- With exact indices live items share no keys. -/
theorem KeysExact.apart (h : s.KeysExact) (hs : s.Lawful I) : s.KeysApart := by
  intro kind i j a b ha hb hla hlb key hkey hkey'
  rw [item?_eq] at ha hb
  refine (h kind).eq_of_sharesKey ha hb hla hlb ?_
  rw [hs.kind_eq]
  exact ⟨key, hkey, hkey'⟩

/-- A record that does not collide shares no key with a live item other than the excluded one. -/
theorem KeysExact.eq_of_collision? (h : s.KeysExact) (hs : s.Lawful I) {kind : Kind} {content : Record}
    {exclude : Option ItemId} (hnone : s.collision? kind content exclude = none) {id : ItemId} {b : Item}
    (hb : s.item? ⟨kind, id⟩ = some b) (hlive : b.removed = false)
    (hshares : kind.SharesKey content b.content) : some id = exclude := by
  obtain ⟨key, hkey, hkey'⟩ := hshares
  rw [collision?_eq, Table.collision?_eq_none_iff, hs.kind_eq] at hnone
  rw [item?_eq] at hb
  exact hnone key hkey id ((h kind).complete id hb key
    (Table.mem_keysOf_iff.2 ⟨hlive, by rw [hs.kind_eq]; exact hkey'⟩))

/-- An item may be put in if it shares no key with another live item. -/
theorem KeysExact.put (h : s.KeysExact) (hs : s.Lawful I) {item : Item}
    (hfree : item.removed = false → ∀ id b, s.item? ⟨item.kind, id⟩ = some b → b.removed = false →
      item.kind.SharesKey item.content b.content → id = item.id) : (s.put item).KeysExact := by
  intro kind
  rw [table_put]
  split
  next hk =>
    subst hk
    refine (h item.kind).insert fun key hkey id hholder => ?_
    obtain ⟨b, hb, hkeyb⟩ := (h item.kind).sound hholder
    obtain ⟨hlive, hkey⟩ := Table.mem_keysOf_iff.1 hkey
    obtain ⟨hblive, hkeyb⟩ := Table.mem_keysOf_iff.1 hkeyb
    rw [hs.kind_eq] at hkey hkeyb
    exact hfree hlive id b ((item?_eq ..).trans hb) hblive ⟨key, hkey, hkeyb⟩
  next => exact h kind

theorem KeysExact.modify (h : s.KeysExact) (hs : s.Lawful I) {item : Item} {f : Item → Item}
    (hitem : s.item? r = some item) (href : ∀ item, (f item).ref = item.ref)
    (hfree : (f item).removed = false → ∀ id b, s.item? ⟨r.kind, id⟩ = some b → b.removed = false →
      r.kind.SharesKey (f item).content b.content → id = r.id) : (s.modify r f).KeysExact := by
  have hname : (f item).ref = r := (href item).trans (hs.housed.ref_eq hitem)
  rw [hs.housed.modify_eq_put hitem href]
  refine h.put hs ?_
  rw [show (f item).kind = r.kind from congrArg ItemRef.kind hname,
    show (f item).id = r.id from congrArg ItemRef.id hname]
  exact hfree

/-- A live item may get another content with keys that it has already. -/
theorem KeysExact.modify_of_live (h : s.KeysExact) (hs : s.Lawful I) {item : Item} {f : Item → Item}
    (hitem : s.item? r = some item) (hlive : item.removed = false)
    (href : ∀ item, (f item).ref = item.ref) (hcontent : (f item).content = item.content) :
    (s.modify r f).KeysExact := by
  refine h.modify hs hitem href fun _ id b hb hblive hshares => ?_
  rw [hcontent] at hshares
  obtain ⟨key, hkey, hkeyb⟩ := hshares
  exact h.apart hs hb hitem hblive hlive key hkeyb hkey

/-! ### Edits -/

theorem KeysExact.add (h : s.KeysExact) (hs : s.Lawful I) {kind : Kind} {given : Record} {id : ItemId}
    (hadd : s.add kind given = .ok (id, s')) : s'.KeysExact := by
  obtain ⟨-, rfl, -, hfault⟩ := add_eq_ok hadd
  unfold contentFault? at hfault
  simp only [Option.or_eq_none_iff, Option.map_eq_none_iff] at hfault
  have hs' : ({ s with nextId := s.nextId.next } : Session).Lawful I :=
    hs.congr (fun _ => rfl) (Nat.le_succ _)
  have hk : ({ s with nextId := s.nextId.next } : Session).KeysExact := h
  refine hk.put hs' fun _ id b hb hlive hshares => ?_
  exact nomatch h.eq_of_collision? hs hfault.2.2 hb hlive hshares

theorem KeysExact.update (h : s.KeysExact) (hs : s.Lawful I) {changes : Record}
    (hup : s.update r changes = .ok s') : s'.KeysExact := by
  obtain ⟨item, hitem, hlive, -, hfault, rfl⟩ := update_eq_ok hup
  unfold contentFault? at hfault
  simp only [Option.or_eq_none_iff, Option.map_eq_none_iff] at hfault
  rcases item.edit_cases changes with ⟨-, hsame⟩ | hnew
  · exact h.modify_of_live hs hitem hlive (·.ref_edit changes) (congrArg Item.content hsame)
  · refine h.modify hs hitem (·.ref_edit changes) fun _ id b hb hblive hshares => ?_
    rw [hnew] at hshares
    exact Option.some.inj (h.eq_of_collision? hs hfault.2.2 hb hblive hshares)

theorem KeysExact.markRemoved (h : s.KeysExact) (hs : s.Lawful I) {item : Item}
    (hitem : s.item? r = some item) (source : Option ItemRef) :
    (s.modify r (·.markRemoved source)).KeysExact := by
  refine h.modify hs hitem (·.ref_markRemoved source) fun hlive => ?_
  rw [item.removed_markRemoved source] at hlive
  cases hlive

theorem KeysExact.remove (h : s.KeysExact) (hs : s.Lawful Item.Tidy) {refs : List ItemRef}
    (hrem : s.remove r = .ok (refs, s')) : s'.KeysExact :=
  (remove_induction (P := fun t => t.KeysExact ∧ t.Lawful Item.Tidy)
    (fun _ r _ source hitem ht =>
      ⟨ht.1.markRemoved ht.2 hitem source, ht.2.markRemoved Item.law_tidy r source⟩)
    hrem ⟨h, hs⟩).1

/-! ### Restoring -/

/-- No two removed items that were removed for the same item share a key. -/
def SourcesApart (s : Session) : Prop :=
  ∀ ⦃kind i j a b⦄, s.item? ⟨kind, i⟩ = some a → s.item? ⟨kind, j⟩ = some b → a.removed = true →
    b.removed = true → ∀ p ∈ a.removalSource, b.removalSource = some p →
    ∀ key ∈ kind.keysOf a.content, key ∈ kind.keysOf b.content → i = j

instance : Decidable s.SourcesApart :=
  have : ∀ (kind : Kind) (a b : Item), Decidable (∀ p ∈ a.removalSource, b.removalSource = some p →
      ∀ key ∈ kind.keysOf a.content, key ∈ kind.keysOf b.content → a.id = b.id) :=
    fun _ _ _ => inferInstance
  decidable_of_iff _ (forall_pair_iff (s := s) (p := fun kind i j a b => a.removed = true →
    b.removed = true → ∀ p ∈ a.removalSource, b.removalSource = some p →
    ∀ key ∈ kind.keysOf a.content, key ∈ kind.keysOf b.content → i = j)).symm

/-- What an item refers to is live, and no live item shares a key with it. -/
structure Admits (s : Session) (item : Item) : Prop where
  references : ∀ target ∈ item.references, s.isLive target = true
  keys : ∀ id b, s.item? ⟨item.kind, id⟩ = some b → b.removed = false →
    ¬ item.kind.SharesKey item.content b.content

/-- The items that a restoration is going to visit can all be restored, in any order, as far as they are
removed. -/
structure Poised (s : Session) (todo : List ItemRef) : Prop where
  admits : ∀ q ∈ todo, ∀ a, s.item? q = some a → a.removed = true → s.Admits a
  apart : ∀ q ∈ todo, ∀ q' ∈ todo, ∀ a b, s.item? q = some a → s.item? q' = some b →
    a.removed = true → b.removed = true → a.kind = b.kind → a.kind.SharesKey a.content b.content →
    q = q'
  /-- What is visited after the first item refers to others. -/
  referring : todo.length ≤ 1 ∨ ∀ q ∈ todo, q.kind.references ≠ []

/-- A removed item that nothing prevents from being restored is admitted. -/
theorem KeysExact.admits (h : s.KeysExact) (hs : s.Lawful I) {item : Item} (hitem : s.item? r = some item)
    (hrem : item.removed = true) (hfault : s.restoreFault? item = none) : s.Admits item := by
  unfold restoreFault? at hfault
  rw [Option.or_eq_none_iff, Option.map_eq_none_iff, Option.map_eq_none_iff, List.find?_eq_none] at hfault
  refine ⟨fun target htarget => by simpa using hfault.1 target htarget, fun id b hb hlive hshares => ?_⟩
  have hid := Option.some.inj (h.eq_of_collision? hs hfault.2 hb hlive hshares)
  have hname : (⟨item.kind, id⟩ : ItemRef) = r := by
    rw [hid]
    exact hs.housed.ref_eq hitem
  rw [hname, hitem] at hb
  rw [← Option.some.inj hb, hrem] at hlive
  cases hlive

theorem Poised.tail {rest : List ItemRef} (h : s.Poised (r :: rest)) : s.Poised rest where
  admits q hq := h.admits q (List.mem_cons_of_mem r hq)
  apart q hq q' hq' := h.apart q (List.mem_cons_of_mem r hq) q' (List.mem_cons_of_mem r hq')
  referring := h.referring.imp (Nat.le_trans (Nat.le_succ _))
    fun h q hq => h q (List.mem_cons_of_mem r hq)

/-- An item that is still removed once another one was restored was so before. -/
theorem item?_of_removed_of_restored (hs : s.Lawful I) {item : Item} (hitem : s.item? r = some item)
    {q : ItemRef} {a : Item} (ha : (s.modify r Item.restored).item? q = some a)
    (harem : a.removed = true) : q ≠ r ∧ s.item? q = some a := by
  rw [hs.housed.item?_modify hitem Item.ref_restored] at ha
  split at ha
  next =>
    rw [← Option.some.inj ha, item.removed_restored] at harem
    cases harem
  next hne => exact ⟨hne, ha⟩

/-- What a restoration goes on to visit is there, was removed for the item that is restored, and can be
restored now that it is. -/
theorem exists_of_mem_followers (hs : s.Lawful Item.Tidy)
    (hk : (s.modify r Item.restored).KeysExact) {item : Item} (hitem : s.item? r = some item)
    {q : ItemRef} (hq : q ∈ s.followers r) :
    ∃ a, s.item? q = some a ∧ a.removed = true ∧ a.removalSource = some r ∧ r ∈ a.references ∧
      q ≠ r ∧ (s.modify r Item.restored).Admits a := by
  have hget := hs.housed.item?_modify hitem Item.ref_restored
  obtain ⟨hq, hrestorable⟩ := List.mem_filter.1 (List.mem_reverse.1 hq)
  obtain ⟨a, ha, htest, href⟩ := (mem_referrers_iff hs.named).1 hq
  obtain ⟨hrem, hsource⟩ := Bool.and_eq_true_iff.1 htest
  have hne : q ≠ r := by
    rintro rfl
    have hlt := Item.rank_lt_of_mem_references href
    rw [hs.housed.item_kind ha] at hlt
    exact Nat.lt_irrefl _ hlt
  have ha' : (s.modify r Item.restored).item? q = some a := by rw [hget, if_neg hne, ha]
  unfold isRestorable at hrestorable
  rw [ha', Option.any_some, Option.isNone_iff_eq_none] at hrestorable
  exact ⟨a, ha, hrem, of_decide_eq_true hsource, href, hne,
    hk.admits (hs.modify r Item.ref_restored Item.law_tidy.restored) ha' hrem hrestorable⟩

/-- An item that goes on waiting while another one is restored can still be restored afterwards. -/
theorem Poised.admits_rest {rest : List ItemRef} (h : s.Poised (r :: rest)) (hs : s.Lawful Item.Tidy)
    {item : Item} (hitem : s.item? r = some item) (hrem : item.removed = true) {q : ItemRef}
    (hq : q ∈ rest) (hne : q ≠ r) {a : Item} (ha : s.item? q = some a) (harem : a.removed = true) :
    (s.modify r Item.restored).Admits a := by
  have hget := hs.housed.item?_modify hitem Item.ref_restored
  have hadmits := h.admits q (List.mem_cons_of_mem r hq) a ha harem
  refine ⟨fun target htarget => ?_, fun id b hb hlive hshares => ?_⟩
  · obtain ⟨b, hb, hlive⟩ := isLive_iff.1 (hadmits.references target htarget)
    by_cases htr : target = r
    · exact isLive_iff.2 ⟨_, (hget target).trans (if_pos htr), item.removed_restored⟩
    · exact isLive_iff.2 ⟨b, ((hget target).trans (if_neg htr)).trans hb, hlive⟩
  · rw [hget] at hb
    split at hb
    next hname =>
      obtain rfl := Option.some.inj hb
      rw [Item.content_restored] at hshares
      have hkind : a.kind = item.kind :=
        (congrArg ItemRef.kind hname).trans (hs.housed.item_kind hitem).symm
      exact hne (h.apart q (List.mem_cons_of_mem r hq) r (List.mem_cons_self ..) a item ha hitem harem
        hrem hkind hshares)
    next => exact hadmits.keys id b hb hlive hshares

/-- If more than one item is to be visited, they are all of kinds that refer to others. -/
theorem Poised.references_ne_nil {rest : List ItemRef} (h : s.Poised (r :: rest)) {q' : ItemRef}
    (hq' : q' ∈ rest) : ∀ q ∈ r :: rest, q.kind.references ≠ [] := by
  refine h.referring.resolve_left fun hlen => ?_
  obtain rfl : rest = [] := List.length_eq_zero_iff.1 (Nat.le_zero.1 (Nat.le_of_succ_le_succ hlen))
  cases hq'

/-- What waits from before shares no key with what was removed for the first item: it would refer to that
item too, which is still removed. -/
theorem Poised.not_sharesKey {rest : List ItemRef} (h : s.Poised (r :: rest)) {item : Item}
    (hitem : s.item? r = some item) (hrem : item.removed = true) {a b : Item} (href : r ∈ a.references)
    {q : ItemRef} (hq : q ∈ rest) (hb : s.item? q = some b) (hbrem : b.removed = true)
    (hkind : b.kind = a.kind) : ¬ a.kind.SharesKey a.content b.content := by
  intro hshares
  have hdeep := h.references_ne_nil hq r (List.mem_cons_self ..)
  have hlive := (h.admits q (List.mem_cons_of_mem r hq) b hb hbrem).references r
    (Item.mem_references_of_sharesKey hkind hshares href hdeep)
  obtain ⟨x, hx, hxlive⟩ := isLive_iff.1 hlive
  rw [← Option.some.inj (hitem.symm.trans hx), hrem] at hxlive
  cases hxlive

/-- Items that were removed for the same one share no key. -/
theorem SourcesApart.eq_of_sharesKey (h : s.SourcesApart) (hs : s.Lawful I) {q q' : ItemRef} {a b : Item}
    (ha : s.item? q = some a) (hb : s.item? q' = some b) (harem : a.removed = true)
    (hbrem : b.removed = true) (hsource : a.removalSource = some r) (hsource' : b.removalSource = some r)
    (hkind : a.kind = b.kind) (hshares : a.kind.SharesKey a.content b.content) : q = q' := by
  obtain ⟨kind, i⟩ := q
  obtain ⟨kind', j⟩ := q'
  obtain rfl : a.kind = kind := hs.housed.item_kind ha
  obtain rfl : b.kind = kind' := hs.housed.item_kind hb
  obtain ⟨key, hkey, hkey'⟩ := hshares
  rw [hkind] at ha hkey hkey' ⊢
  rw [h ha hb harem hbrem r hsource hsource' key hkey hkey']

/-- Restoring the first item keeps the others ready, together with those that were removed for it. -/
theorem Poised.step {rest : List ItemRef} (h : s.Poised (r :: rest)) (hs : s.Lawful Item.Tidy)
    (hk : (s.modify r Item.restored).KeysExact) (hsrc : s.SourcesApart) {item : Item}
    (hitem : s.item? r = some item) (hrem : item.removed = true) :
    (s.modify r Item.restored).Poised (s.followers r ++ rest) := by
  have hfound : ∀ {q a}, q ∈ s.followers r → s.item? q = some a → a.removalSource = some r ∧
      r ∈ a.references ∧ (s.modify r Item.restored).Admits a := by
    intro q a hq ha
    obtain ⟨a', ha', -, hsource, href, -, hadmits⟩ := exists_of_mem_followers hs hk hitem hq
    obtain rfl := Option.some.inj (ha.symm.trans ha')
    exact ⟨hsource, href, hadmits⟩
  refine ⟨fun q hq a ha harem => ?_, fun q hq q' hq' a b ha hb harem hbrem hkind hshares => ?_,
    .inr fun q hq => ?_⟩
  · obtain ⟨hne, ha⟩ := item?_of_removed_of_restored hs hitem ha harem
    rcases List.mem_append.1 hq with hq | hq
    · exact (hfound hq ha).2.2
    · exact h.admits_rest hs hitem hrem hq hne ha harem
  · obtain ⟨-, ha⟩ := item?_of_removed_of_restored hs hitem ha harem
    obtain ⟨-, hb⟩ := item?_of_removed_of_restored hs hitem hb hbrem
    rcases List.mem_append.1 hq with hq | hq <;> rcases List.mem_append.1 hq' with hq' | hq'
    · exact hsrc.eq_of_sharesKey hs ha hb harem hbrem (hfound hq ha).1 (hfound hq' hb).1 hkind hshares
    · exact absurd hshares (h.not_sharesKey hitem hrem (hfound hq ha).2.1 hq' hb hbrem hkind.symm)
    · rw [hkind] at hshares
      exact absurd hshares.symm (h.not_sharesKey hitem hrem (hfound hq' hb).2.1 hq ha harem hkind)
    · exact h.apart q (List.mem_cons_of_mem r hq) q' (List.mem_cons_of_mem r hq') a b ha hb harem hbrem
        hkind hshares
  · rcases List.mem_append.1 hq with hq | hq
    · obtain ⟨a, ha, -, -, href, -, -⟩ := exists_of_mem_followers hs hk hitem hq
      obtain ⟨field, hfield, -⟩ := Item.mem_references_iff.1 href
      rw [hs.housed.item_kind ha] at hfield
      exact List.ne_nil_of_mem hfield
    · exact h.references_ne_nil hq q (List.mem_cons_of_mem r hq)

theorem SourcesApart.restored (h : s.SourcesApart) (hs : s.Lawful Item.Tidy) {item : Item}
    (hitem : s.item? r = some item) : (s.modify r Item.restored).SourcesApart :=
  fun _ _ _ _ _ ha hb harem hbrem =>
    h (item?_of_removed_of_restored hs hitem ha harem).2
      (item?_of_removed_of_restored hs hitem hb hbrem).2 harem hbrem

/-- Restoring items that are ready keeps the indices exact. -/
theorem KeysExact.restoreAll (h : s.KeysExact) (hs : s.Lawful Item.Tidy) (hsrc : s.SourcesApart)
    {todo : List ItemRef} (hp : s.Poised todo) : (s.restoreAll todo).2.KeysExact := by
  fun_induction Session.restoreAll s todo with
  | case1 s => exact h
  | case2 s r rest hnone ih => exact ih h hs hsrc hp.tail
  | case3 s r rest item hitem s' hrem dependents restored s'' heq ih =>
    have hs' := hs.modify r Item.ref_restored Item.law_tidy.restored
    have hadmits := hp.admits r (List.mem_cons_self ..) item hitem hrem
    have hk' : s'.KeysExact := by
      refine h.modify hs hitem Item.ref_restored fun _ id b hb hlive hshares => ?_
      rw [Item.content_restored, ← hs.housed.item_kind hitem] at hshares
      rw [← hs.housed.item_kind hitem] at hb
      exact absurd hshares (hadmits.keys id b hb hlive)
    have hrest := ih hk' hs' (hsrc.restored hs hitem) (hp.step hs hk' hsrc hitem hrem)
    rw [heq] at hrest
    exact hrest
  | case4 s r rest item hitem hlive ih => exact ih h hs hsrc hp.tail

/-- A restoration keeps the indices exact, unless two removed items that share a key were removed for
the same item. -/
theorem KeysExact.restore (h : s.KeysExact) (hs : s.Lawful Item.Tidy) (hsrc : s.SourcesApart)
    {refs : List ItemRef} (hres : s.restore r = .ok (refs, s')) : s'.KeysExact := by
  obtain ⟨item, hitem, ⟨-, -, rfl⟩ | ⟨hrem, hfault, heq⟩⟩ := restore_eq_ok hres
  · exact h
  · have hp : s.Poised [r] := by
      refine ⟨fun q hq a ha _ => ?_, fun q hq q' hq' _ _ _ _ _ _ _ _ => ?_, .inl (Nat.le_refl 1)⟩
      · obtain rfl := List.mem_singleton.1 hq
        obtain rfl := Option.some.inj (ha.symm.trans hitem)
        exact h.admits hs hitem hrem hfault
      · exact (List.mem_singleton.1 hq).trans (List.mem_singleton.1 hq').symm
    have hall := h.restoreAll hs hsrc hp
    rwa [heq] at hall

/-! ### Writing and discarding edits -/

/-- No two rows that items last agreed with share a key. -/
def RowsApart (s : Session) : Prop :=
  ∀ ⦃kind i j a b row row'⦄, s.item? ⟨kind, i⟩ = some a → s.item? ⟨kind, j⟩ = some b →
    a.synced = some row → b.synced = some row' →
    ∀ key ∈ kind.keysOf row, key ∈ kind.keysOf row' → i = j

/-- What is left of an item after rolling back has the content of its row. -/
theorem exists_row_of_rolledBack (hs : s.Lawful Item.Tidy) (hf : s.Faithful) {a b : Item}
    (ha : s.item? r = some a) (hb : a.rolledBack? = some b) :
    ∃ row, a.synced = some row ∧ b.content = r.kind.contentOf row := by
  have hcons := (hs.item ha).consistent
  obtain ⟨he, hst⟩ := Item.edited_rolledBack hcons hb
  obtain ⟨-, row, hsync, hcontent⟩ := (Item.faithful_rolledBack (hf ha) hcons hb).truthful.2 hst
  rw [he.kind_eq, hs.housed.item_kind ha] at hcontent
  exact ⟨row, he.synced_eq.symm.trans hsync, hcontent⟩

/-- Rolling back makes the indices exact, if no two rows share a key. -/
theorem RowsApart.keysExact_rollBack (h : s.RowsApart) (hs : s.Lawful Item.Tidy) (hf : s.Faithful)
    (hback : s.rollBack = .ok s') : s'.KeysExact := by
  intro kind
  rw [table_rollBack hback]
  refine Table.keysExact_rollBack (hs.table kind).keysSound (hs.tidy.consistent_get? kind) ?_
  intro i j a b a' b' ha hb ha' hb' key hkey hkey'
  have ha : s.item? ⟨kind, i⟩ = some a := (item?_eq ..).trans ha
  have hb : s.item? ⟨kind, j⟩ = some b := (item?_eq ..).trans hb
  obtain ⟨row, hrow, hcontent⟩ := exists_row_of_rolledBack hs hf ha ha'
  obtain ⟨row', hrow', hcontent'⟩ := exists_row_of_rolledBack hs hf hb hb'
  have hkey := (Table.mem_keysOf_iff.1 hkey).2
  have hkey' := (Table.mem_keysOf_iff.1 hkey').2
  rw [hs.kind_eq, hcontent, keysOf_contentOf] at hkey
  rw [hs.kind_eq, hcontent', keysOf_contentOf] at hkey'
  exact h ha hb hrow hrow' key hkey hkey'

/-- Session `x`, on the way of writing items of `s`, with the items `done` written so far. -/
structure Rewritten (s : Session) (reserved : List (ItemId × DbId)) (commit : CommitId)
    (done : List ItemRef) (x : Session) : Prop where
  lawful : x.Lawful Item.Tidy
  keys : x.KeysExact
  item? : ∀ r, x.item? r =
    if r ∈ done then (s.item? r).map (writeItem reserved commit r) else s.item? r

theorem Rewritten.step {reserved : List (ItemId × DbId)} {commit : CommitId} {done : List ItemRef}
    {x : Session} (h : s.Rewritten reserved commit done x) {item : Item} (hitem : s.item? r = some item)
    (hlive : item.removed = false) (hr : r ∉ done) :
    s.Rewritten reserved commit (r :: done) (x.modify r (writeItem reserved commit r)) := by
  have hx : x.item? r = some item := by rw [h.item?, if_neg hr, hitem]
  have href := ref_writeItem reserved commit r
  refine ⟨h.lawful.modify r href Item.law_tidy.writeItem,
    h.keys.modify_of_live h.lawful hx hlive href ?_, fun q => ?_⟩
  · unfold writeItem
    split <;> rfl
  · rw [h.lawful.housed.item?_modify hx href]
    by_cases hq : q = r
    · rw [if_pos hq, if_pos (hq ▸ List.mem_cons_self ..), hq, hitem, Option.map_some]
    · rw [if_neg hq, h.item?]
      exact if_congr (by simp [hq]) rfl rfl

/-- A commit writes live items as they are, and drops the others. -/
theorem KeysExact.committed (h : s.KeysExact) (hs : s.Lawful Item.Tidy)
    (reserved : List (ItemId × DbId)) (commit : CommitId) :
    (s.committed s.pending reserved commit).KeysExact ∧
      ∀ r, (s.committed s.pending reserved commit).item? r = s.committedItem? reserved commit r := by
  have hmem := fun r => mem_writtenRefs_iff hs.tidy (r := r)
  have hstart : s.Rewritten reserved commit [] s := ⟨hs, h, fun r => (if_neg List.not_mem_nil).symm⟩
  have hend := foldl_of_nodup (f := fun s r => s.modify r (writeItem reserved commit r))
    (nodup_writtenRefs hs.tidy) (fun done x r hr hdone h => by
      obtain ⟨item, hitem, hst⟩ := (hmem r).1 hr
      exact h.step hitem (Item.live_of_unwritten hst).1 hdone) hstart
  unfold Session.committed
  rw [← List.foldl_flatMap]
  refine ⟨fun kind => ?_, fun r => ?_⟩
  · rw [table_dropRemoved]
    exact (hend.keys kind).dropRemoved
  · refine item?_dropRemoved_of_written hend.item? (fun r item hitem => ?_) _ r
    rw [List.mem_reverse, hmem]
    constructor
    · rintro ⟨item', hitem', hst⟩
      rwa [Option.some.inj (hitem.symm.trans hitem')]
    · exact fun hst => ⟨item, hitem, hst⟩

end Session

end StagedEdits
