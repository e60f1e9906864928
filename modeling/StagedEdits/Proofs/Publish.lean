import Mathlib.Data.List.Pairwise
import StagedEdits.Proofs.Cascade
import StagedEdits.Proofs.Keys
import StagedEdits.Proofs.Shape

/-!
# What a commit publishes

A session is aligned with a database if it mirrors all of its tables.  If in addition its live items
refer to live items only, a commit keeps it aligned, and the database then has all rows that its rows
refer to (`Commits.aligned`); if not, the commit leaves a reference behind that leads nowhere
(`Commits.referencesLive`).
-/

namespace StagedEdits

namespace Session

variable {s s' : Session} {db db₁ db' : Database} {kind : Kind}

/-- A session that mirrors a database. -/
structure Aligned (s : Session) (db : Database) : Prop extends s.WellFormed where
  bounded : s.Bounded db
  faithful : s.Faithful
  mirrors : ∀ kind, s.Mirrors db kind

theorem ReferencesLive.exists_item (h : s.ReferencesLive) (hf : s.Faithful) {r : ItemRef}
    {item : Item} (hi : s.item? r = some item) (hlive : item.removed = false) {e : String × Kind}
    (he : e ∈ item.kind.references) : ∃ id target, item.content.get? e.1 = some (.ref id) ∧
      s.item? ⟨e.2, id⟩ = some target ∧ target.removed = false := by
  obtain ⟨id, hid, -⟩ := (hf hi).refers e he
  have hmem : (⟨e.2, id⟩ : ItemRef) ∈ item.references := Item.mem_references_iff.2 ⟨e.1, he, hid⟩
  obtain ⟨target, ht, htl⟩ := isLive_iff.1 (h hi hlive _ hmem)
  exact ⟨id, target, hid, ht, htl⟩

/-! ### The database of an aligned session -/

/-- A row of an aligned session's database, field by field. -/
theorem Aligned.references (h : s.Aligned db) {d : DbId} {row : Record}
    (hrow : db.row? kind d = some row) {e : String × Kind} (he : e ∈ kind.references) :
    ∃ n id item, row.get? e.1 = some (.integer n) ∧ s.itemOfRow? e.2 ⟨n⟩ = some id ∧
      s.item? ⟨e.2, id⟩ = some item ∧ item.dbId = some ⟨n⟩ := by
  obtain ⟨i, a, ha, hd⟩ := (h.mirrors kind).item_of_row hrow
  obtain ⟨row', r, hrow', hsync, hr⟩ := (h.mirrors kind).row_of_item ha hd
  obtain rfl := Option.some.inj (hrow.symm.trans hrow')
  have hk := h.item_kind ha
  obtain ⟨id, hid, -⟩ := ((h.faithful ha).synced r hsync).refers e (by rw [hk]; exact he)
  rcases (localRow?_eq_some_iff.1 hr).translated e he with ⟨hnull, heq⟩ | ⟨n, id', hn, hid', -⟩
  · rw [← heq, hid] at hnull
    cases hnull
  · obtain ⟨item, hi, hdi⟩ := h.itemOfRow?_eq_some_iff.1 hid'
    exact ⟨n, id', item, hn, hid', hi, hdi⟩

theorem Aligned.referencesHold (h : s.Aligned db) : db.ReferencesHold := by
  intro kind d row hrow e he
  obtain ⟨n, id, item, hn, -, hi, hdi⟩ := h.references hrow he
  obtain ⟨target, -, htarget, -⟩ := (h.mirrors e.2).row_of_item hi hdi
  exact ⟨n, target, hn, htarget⟩

/-- The rows of an aligned session's database have the fields of their kind. -/
theorem Aligned.shaped (h : s.Aligned db) : db.Shaped := by
  constructor
  case covers =>
    intro kind d row hrow field hf
    by_cases href : field ∈ kind.references.map (·.1)
    · obtain ⟨e, he, rfl⟩ := List.mem_map.1 href
      obtain ⟨n, -, -, hn, -⟩ := h.references hrow he
      exact ⟨_, hn⟩
    · obtain ⟨i, a, ha, hd⟩ := (h.mirrors kind).item_of_row hrow
      obtain ⟨row', r, hrow', hsync, hr⟩ := (h.mirrors kind).row_of_item ha hd
      obtain rfl := Option.some.inj (hrow.symm.trans hrow')
      rw [same_of_localRow? hr field href]
      refine ((h.faithful ha).synced r hsync).covers field ?_
      rw [h.item_kind ha]
      exact hf
  case refs =>
    intro kind d row hrow e he
    obtain ⟨n, -, -, hn, -⟩ := h.references hrow he
    exact ⟨n, hn⟩

/-! ### Unique keys -/

theorem uniqueKeys_subset_fields (k : Kind) : ∀ fields ∈ k.uniqueKeys, ∀ field ∈ fields,
    field ∈ k.fields := by
  cases k <;> decide

/-- Records that share the values that two others share, apart from null, share a key if these do. -/
theorem sharesKey_of_values {q q' r r' : Record} (h : kind.SharesKey r r')
    (hvalue : ∀ field, r.value field = r'.value field → r.value field ≠ .null →
      q.value field = q'.value field ∧ q.value field ≠ .null) : kind.SharesKey q q' := by
  obtain ⟨key, hk, hk'⟩ := h
  obtain ⟨fields, hmem, hvalues, hnull⟩ := Kind.mem_keysOf_iff.1 hk
  obtain ⟨fields', hmem', hvalues', -⟩ := Kind.mem_keysOf_iff.1 hk'
  obtain rfl : fields = fields' := by
    rw [List.mem_zipIdx_iff_getElem?] at hmem hmem'
    exact Option.some.inj (hmem.symm.trans hmem')
  have hfield : ∀ field ∈ fields, q.value field = q'.value field ∧ q.value field ≠ .null := by
    intro field hf
    refine hvalue field (List.map_inj_left.1 (hvalues.symm.trans hvalues') field hf) fun hn => ?_
    exact hnull (hvalues ▸ List.mem_map.2 ⟨field, hf, hn⟩)
  have hnone : Value.null ∉ fields.map q.value := by
    intro hn
    obtain ⟨field, hf, hn⟩ := List.mem_map.1 hn
    exact (hfield field hf).2 hn
  exact ⟨⟨key.index, fields.map q.value⟩, Kind.mem_keysOf_iff.2 ⟨fields, hmem, rfl, hnone⟩,
    Kind.mem_keysOf_iff.2 ⟨fields, hmem, List.map_congr_left fun field hf => (hfield field hf).1, hnone⟩⟩

/-- Two rows have the same value in a field just in case they are read with the same value. -/
theorem value_eq_iff_of_localRow? {row row' r r' : Record} (hr : s.localRow? kind row = some r)
    (hr' : s.localRow? kind row' = some r') (field : String) :
    (r.value field = r'.value field ↔ row.value field = row'.value field) ∧
      (r.value field = .null ↔ row.value field = .null) := by
  unfold Record.value
  by_cases href : field ∈ kind.references.map (·.1)
  · obtain ⟨e, he, rfl⟩ := List.mem_map.1 href
    rcases (localRow?_eq_some_iff.1 hr).translated e he with ⟨hn, hv⟩ | ⟨n, id, hn, hid, hv⟩ <;>
      rcases (localRow?_eq_some_iff.1 hr').translated e he with ⟨hn', hv'⟩ | ⟨n', id', hn', hid', hv'⟩
    · rw [hv, hv']
      exact ⟨.rfl, .rfl⟩
    · rw [hv, hv', hn, hn']
      exact ⟨iff_of_false nofun nofun, .rfl⟩
    · rw [hv, hv', hn, hn']
      exact ⟨iff_of_false nofun nofun, iff_of_false nofun nofun⟩
    · rw [hv, hv', hn, hn']
      refine ⟨⟨fun h => ?_, fun h => ?_⟩, iff_of_false nofun nofun⟩
      · -- an item stands for one row at most
        obtain rfl := Value.ref.inj h
        rw [itemOfRow?_eq] at hid hid'
        exact congrArg (fun d : DbId => Value.integer d.val) ((s.table e.2).bindings.injective hid hid')
      · obtain rfl := Value.integer.inj h
        rw [hid] at hid'
        exact congrArg Value.ref (Option.some.inj hid')
  · rw [same_of_localRow? hr field href, same_of_localRow? hr' field href]
    exact ⟨.rfl, .rfl⟩

/-- Rows have a key in common just in case they are read as rows with a key in common. -/
theorem sharesKey_iff_of_localRow? {row row' r r' : Record} (hr : s.localRow? kind row = some r)
    (hr' : s.localRow? kind row' = some r') : kind.SharesKey r r' ↔ kind.SharesKey row row' := by
  have hvalue := value_eq_iff_of_localRow? hr hr'
  constructor
  · exact fun h => sharesKey_of_values h fun field heq hne =>
      ⟨(hvalue field).1.1 heq, mt (hvalue field).2.2 hne⟩
  · exact fun h => sharesKey_of_values h fun field heq hne =>
      ⟨(hvalue field).1.2 heq, mt (hvalue field).2.1 hne⟩

/-- Records that agree on all fields of the kind have the same keys. -/
theorem keysOf_congr {r r' : Record} (h : ∀ field ∈ kind.fields, r.value field = r'.value field) :
    kind.keysOf r = kind.keysOf r' := by
  unfold Kind.keysOf
  refine List.filterMap_congr fun e he => ?_
  have hmem : e.1 ∈ kind.uniqueKeys := by
    obtain ⟨fields, index⟩ := e
    exact List.mem_of_getElem? (List.mem_zipIdx_iff_getElem?.1 he)
  have hmap : e.1.map r.value = e.1.map r'.value :=
    List.map_congr_left fun field hf => h field (uniqueKeys_subset_fields kind e.1 hmem field hf)
  dsimp only
  rw [hmap]

/-- The keys of a row are those of its content. -/
theorem keysOf_contentOf (kind : Kind) (row : Record) :
    kind.keysOf (kind.contentOf row) = kind.keysOf row :=
  keysOf_congr ((kind.complete_contentOf row).eq_contentOf_iff.1 rfl)

end Session

namespace Table

/-- A list in which nothing is found repeated has no repetitions. -/
theorem nodup_of_firstRepeated? {keys seen : List UniqueKey}
    (h : firstRepeated? seen keys = none) : keys.Nodup ∧ ∀ key ∈ keys, key ∉ seen := by
  induction keys generalizing seen with
  | nil => exact ⟨List.nodup_nil, fun _ hk => absurd hk List.not_mem_nil⟩
  | cons key keys ih =>
    unfold firstRepeated? at h
    split at h
    next => cases h
    next hseen =>
      obtain ⟨hnodup, hrest⟩ := ih h
      refine ⟨List.nodup_cons.2 ⟨fun hmem => hrest key hmem (List.mem_cons_self ..), hnodup⟩, ?_⟩
      intro key' hk'
      rcases List.mem_cons.1 hk' with rfl | hk'
      · exact hseen
      · exact fun hin => hrest key' hk' (List.mem_cons_of_mem _ hin)

/-- If no key is shared, live items with a key in common are the same. -/
theorem eq_of_sharedKey?_eq_none {t : Table} (h : t.sharedKey? = none) {a b : Item}
    (ha : a ∈ t.live) (hb : b ∈ t.live) {key : UniqueKey} (hka : key ∈ t.kind.keysOf a.content)
    (hkb : key ∈ t.kind.keysOf b.content) : a = b := by
  obtain ⟨hnodup, -⟩ := nodup_of_firstRepeated? h
  by_contra hne
  have hdisjoint := (List.nodup_flatMap.1 hnodup).2
  have hsymm : Std.Symm (Function.onFun List.Disjoint fun item : Item =>
      t.kind.keysOf item.content) := ⟨fun _ _ hd _ hk hk' => hd hk' hk⟩
  exact hdisjoint.forall ha hb hne hka hkb

end Table

namespace Session

variable {s s' : Session} {db db₁ db' : Database} {kind : Kind} {reserved : List (ItemId × DbId)}
  {id : CommitId}

/-! ### Committing -/

/-- The row of an item, or the one reserved for it, is the one it is written to. -/
theorem Faithful.rowOf?_eq_goal? (hf : s.Faithful) (hs : s.Coherent)
    (hres : s.Reserves db reserved db₁) {r : ItemRef} {item : Item} (hi : s.item? r = some item) :
    s.rowOf? reserved r = s.goal? reserved r := by
  rw [← or_dbId_eq_goal? hs hres hi]
  unfold rowOf?
  rw [hi, Option.bind_some]
  cases hnew : item.status.isNew with
  | true =>
    have hd : item.dbId = none := by
      rw [(hs.consistent hi).dbId_eq, (hf hi).truthful.1.1 hnew]
      rfl
    rw [hd, Option.none_or, Option.or_none]
  | false =>
    rw [lookup_eq_none hs hres hi, Option.none_or, Option.or_none]
    intro hst
    rw [hst] at hnew
    cases hnew

/-- An item with a row is written to that row. -/
theorem Faithful.goal?_of_bound (hf : s.Faithful) (hs : s.Coherent) {r : ItemRef} {item : Item}
    {d : DbId} (hi : s.item? r = some item) (hd : item.dbId = some d) :
    s.goal? reserved r = some d := by
  have hnew := hf.not_new hs hi hd
  refine (goal?_of_not_added hi fun hst => ?_).trans hd
  rw [hst] at hnew
  cases hnew

/-- Every live item is written to a row, or has one. -/
theorem Faithful.exists_goal? (hf : s.Faithful) (hs : s.Coherent)
    (hres : s.Reserves db reserved db₁) {r : ItemRef} {item : Item} (hi : s.item? r = some item)
    (hlive : item.removed = false) : ∃ d, s.goal? reserved r = some d := by
  unfold goal?
  rw [hi, Option.bind_some]
  split
  next hst => exact hres.covers hi hst
  next hst =>
    refine hf.exists_dbId hs hi ?_
    rw [Item.removed] at hlive
    revert hlive hst
    cases item.status <;> simp [Status.isRemoved, Status.isNew]

/-- A live item after a commit: committed, with its content and its row. -/
theorem Commits.live_item (h : s.Commits db reserved id s' db') (hf : s.Faithful) (hs : s.Coherent)
    (hres : s.Reserves db reserved db₁) {r : ItemRef} {a : Item} (ha : s.item? r = some a)
    (hlive : a.removed = false) : ∃ d b, s.goal? reserved r = some d ∧ s'.item? r = some b ∧
      b.dbId = some d ∧ b.content = a.content := by
  obtain ⟨d, hd⟩ := hf.exists_goal? hs hres ha hlive
  have hitem := h.item? r
  unfold committedItem? at hitem
  rw [ha, Option.bind_some, if_neg (by simp [hlive])] at hitem
  split at hitem
  next hst =>
    refine ⟨d, a, hd, hitem, ?_, rfl⟩
    rwa [goal?_of_not_added ha (by rw [hst]; decide)] at hd
  next =>
    refine ⟨d, _, hd, hitem, ?_, ?_⟩
    · exact (dbId_writeItem hs hres ha).trans hd
    · unfold writeItem
      split <;> rfl

/-- Only committed items are left by a commit. -/
theorem Commits.clean (h : s.Commits db reserved id s' db') (hs : s.WellFormed)
    (hres : s.Reserves db reserved db₁) : s'.Clean := by
  intro r b hb
  obtain ⟨a, -, -, ⟨hst, rfl⟩ | ⟨d, row, -, -, -, -, rfl⟩⟩ := h.item_cases hs hres hb
  · exact hst
  · rfl

theorem Commits.succeeds (h : s.Commits db reserved id s' db') (hs : s.WellFormed)
    (hres : s.Reserves db reserved db₁) : s.Succeeds s' := by
  refine ⟨Nat.le_of_eq (congrArg ItemId.val h.nextId.symm), fun r b hb _ => ?_⟩
  obtain ⟨a, ha, -⟩ := h.item_cases hs hres hb
  exact ⟨a, ha⟩

theorem Commits.faithful (h : s.Commits db reserved id s' db') (hs : s.WellFormed)
    (hf : s.Faithful) (hres : s.Reserves db reserved db₁) : s'.Faithful := by
  intro r b hb
  refine Item.Faithful.succeeds ?_ (h.succeeds hs hres)
  obtain ⟨a, ha, -, ⟨-, rfl⟩ | ⟨d, row, -, -, -, -, rfl⟩⟩ := h.item_cases hs hres hb
  · exact hf ha
  · exact Item.faithful_written (hf ha) d id

/-- Rows after a commit belong to items that were live. -/
theorem Commits.item_of_row (h : s.Commits db reserved id s' db') (hs : s.Aligned db) {d : DbId}
    {row : Record}
    (hrow : db'.row? kind d = some row) :
    ∃ i a, s.item? ⟨kind, i⟩ = some a ∧ a.removed = false ∧ s.goal? reserved ⟨kind, i⟩ = some d := by
  have hdeleted : ∀ {i a}, s.item? ⟨kind, i⟩ = some a → a.dbId = some d → a.removed = false := by
    intro i a ha hd
    cases hrem : a.removed with
    | false => rfl
    | true =>
      have hnew := hs.faithful.not_new hs.toCoherent ha hd
      have hst : a.status = .toRemove := by
        rw [Item.removed] at hrem
        revert hrem hnew
        cases a.status <;> simp [Status.isRemoved, Status.isNew]
      have hnone : db'.row? kind d = none := h.writes.deleted (r := ⟨kind, i⟩) ha hst hd
      rw [hnone] at hrow
      cases hrow
  by_cases heq : db'.row? kind d = db.row? kind d
  · obtain ⟨i, a, ha, hd⟩ := (hs.mirrors kind).item_of_row (heq ▸ hrow)
    exact ⟨i, a, ha, hdeleted ha hd, hs.faithful.goal?_of_bound hs.toCoherent ha hd⟩
  · obtain ⟨i, a, ha, hpending, hd⟩ := h.writes.pending_of_ne heq
    refine ⟨i, a, ha, ?_, hd⟩
    by_cases hst : a.status = .toAdd
    · rw [Item.removed, hst]
      rfl
    · exact hdeleted ha ((goal?_of_not_added ha hst).symm.trans hd)

/-- What is stored for a written item is read back as the row that the item agrees with if and only if
each item that it refers to has the row that was put down for it. -/
theorem Commits.localRow?_eq_synced_iff (h : s.Commits db reserved id s' db') {a : Item} {d : DbId}
    {row : Record} (hk : a.kind = kind) (hlinked : kind.Linked a.content)
    (hstored : s.storedRow reserved a d = .ok row) :
    s'.localRow? kind (row.insert Record.commitField (.integer id.val)) = (a.written d id).synced ↔
      ∀ e ∈ kind.references, ∀ y, a.content.get? e.1 = some (.ref y) →
        ∃ b, s'.item? ⟨e.2, y⟩ = some b ∧ b.dbId = s.rowOf? reserved ⟨e.2, y⟩ := by
  obtain ⟨base, htrans, rfl⟩ := storedRow_eq_ok_iff.1 hstored
  have hsynced : (a.written d id).synced = some ((a.content.insert Record.idField
      (.integer d.val)).insert Record.commitField (.integer id.val)) := rfl
  have hsame := same_of_storedRow id hstored hsynced
  rw [hk] at hsame
  rw [hsynced]
  have hread : ∀ e ∈ kind.references, ∃ y n, a.content.get? e.1 = some (.ref y) ∧
      s.rowOf? reserved ⟨e.2, y⟩ = some n ∧ base.get? e.1 = some (.integer n.val) := by
    intro e he
    obtain ⟨y, hy⟩ := hlinked e he
    rcases htrans.translated e (by rw [hk]; exact he) with ⟨y', n, hy', hrow, hbase⟩ | ⟨hnot, -⟩
    · exact ⟨y', n, hy', hrow, hbase⟩
    · exact absurd hy (hnot y)
  have hiff : ∀ {target y} {n : DbId},
      s'.ReadsAs target (some (.integer n.val)) (some (.ref y)) ↔
        ∃ b, s'.item? ⟨target, y⟩ = some b ∧ b.dbId = some n := by
    intro target y n
    rw [← h.wellFormed.itemOfRow?_eq_some_iff]
    constructor
    · rintro (⟨hnull, -⟩ | ⟨n', y', hn, hitem, hy⟩)
      · cases hnull
      · cases hn
        cases hy
        exact hitem
    · exact fun hitem => .inr ⟨n.val, y, rfl, hitem, rfl⟩
  refine localRow?_eq_some_iff.trans ⟨fun hlocal e he y hy => ?_, fun hrefs => ?_⟩
  · obtain ⟨y', n, hy', hrow, hbase⟩ := hread e he
    obtain rfl := Value.ref.inj (Option.some.inj (hy'.symm.trans hy))
    have htranslated := hlocal.translated e he
    rw [base.get?_stamped_of_reference _ _ he, a.content.get?_stamped_of_reference _ _ he, hbase,
      hy] at htranslated
    rw [hrow]
    exact hiff.1 htranslated
  · refine ⟨fun field hf => (hsame field hf).symm, fun e he => ?_⟩
    obtain ⟨y, n, hy, hrow, hbase⟩ := hread e he
    rw [base.get?_stamped_of_reference _ _ he, a.content.get?_stamped_of_reference _ _ he, hbase, hy]
    exact hiff.2 (hrow ▸ hrefs e he y hy)

/-- In an aligned session whose live items refer to live items only, they all do. -/
theorem Commits.localRow?_of_written (h : s.Commits db reserved id s' db') (hs : s.Aligned db)
    (hlive : s.ReferencesLive) (hres : s.Reserves db reserved db₁) {i : ItemId} {a : Item} {d : DbId}
    {row : Record} (ha : s.item? ⟨kind, i⟩ = some a) (halive : a.removed = false)
    (hstored : s.storedRow reserved a d = .ok row) :
    s'.localRow? kind (row.insert Record.commitField (.integer id.val)) =
      (a.written d id).synced := by
  have hk := hs.item_kind ha
  have hrefers : ∀ e ∈ kind.references, _ := fun e he =>
    hlive.exists_item hs.faithful ha halive (by rw [hk]; exact he)
  refine (h.localRow?_eq_synced_iff hk (fun e he => ?_) hstored).2 fun e he y hy => ?_
  · obtain ⟨y, -, hy, -⟩ := hrefers e he
    exact ⟨y, hy⟩
  · obtain ⟨y', target, hy', ht, htlive⟩ := hrefers e he
    obtain rfl := Value.ref.inj (Option.some.inj (hy'.symm.trans hy))
    obtain ⟨dy, b, hgoal, hb, hdb, -⟩ := h.live_item hs.faithful hs.toCoherent hres ht htlive
    exact ⟨b, hb, by rw [hdb, hs.faithful.rowOf?_eq_goal? hs.toCoherent hres ht, hgoal]⟩

/-- What a session has read of the row of a committed item stays true. -/
theorem Commits.localRow?_of_committed (h : s.Commits db reserved id s' db') (hs : s.Aligned db)
    (hlive : s.ReferencesLive) (hres : s.Reserves db reserved db₁) {i : ItemId} {a : Item}
    {row r : Record} (ha : s.item? ⟨kind, i⟩ = some a) (hst : a.status = .committed)
    (hsync : a.synced = some r) (hr : s.localRow? kind row = some r) :
    s'.localRow? kind row = some r := by
  have hk := hs.item_kind ha
  have halive : a.removed = false := by rw [Item.removed, hst]; rfl
  have htrans := localRow?_eq_some_iff.1 hr
  obtain ⟨-, r', hr', hcontent⟩ := (hs.faithful ha).truthful.2 hst
  obtain rfl := Option.some.inj (hsync.symm.trans hr')
  refine localRow?_eq_some_iff.2 ⟨htrans.same, fun e he => ?_⟩
  obtain ⟨y, target, hy, ht, htlive⟩ :=
    hlive.exists_item hs.faithful ha halive (by rw [hk]; exact he)
  obtain ⟨dy, b, hgoal, hb, hdb, -⟩ := h.live_item hs.faithful hs.toCoherent hres ht htlive
  -- the content refers to the same item as the row
  obtain ⟨y', hy', -⟩ := ((hs.faithful ha).synced r hsync).refers e (by rw [hk]; exact he)
  have hfield : e.1 ∈ kind.fields :=
    kind.referenceFields_subset e.1 (Kind.mem_referenceFields he)
  have hcontent' := Kind.get?_contentOf_of_some hfield hy'
  rw [hcontent, hk, hcontent'] at hy
  cases hy
  obtain ⟨n, hn, hyrow⟩ := (get?_contentOf_eq_ref_iff hr he).1 hcontent'
  obtain ⟨x, hx, hdx⟩ := hs.itemOfRow?_eq_some_iff.1 hyrow
  obtain rfl := Option.some.inj (ht.symm.trans hx)
  have hgoal' : s.goal? reserved ⟨e.2, y⟩ = some ⟨n⟩ :=
    hs.faithful.goal?_of_bound hs.toCoherent ht hdx
  obtain rfl := Option.some.inj (hgoal.symm.trans hgoal')
  exact .inr ⟨n, y, hn, h.wellFormed.itemOfRow?_eq_some_iff.2 ⟨b, hb, hdb⟩, hy'⟩

/-- A commit keeps a session aligned whose live items refer to live items only. -/
theorem Commits.aligned (h : s.Commits db reserved id s' db') (hs : s.Aligned db)
    (hlive : s.ReferencesLive) (hres : s.Reserves db reserved db₁) : s'.Aligned db' := by
  refine ⟨h.wellFormed, h.bounded, h.faithful hs.toWellFormed hs.faithful hres, fun kind => ?_⟩
  constructor
  case item_of_row =>
    intro d row hrow
    obtain ⟨i, a, ha, halive, hgoal⟩ := h.item_of_row hs hrow
    obtain ⟨d', b, hgoal', hb, hdb, -⟩ := h.live_item hs.faithful hs.toCoherent hres ha halive
    obtain rfl := Option.some.inj (hgoal.symm.trans hgoal')
    exact ⟨i, b, hb, hdb⟩
  case row_of_item =>
    intro i b d hb hd
    obtain ⟨a, ha, halive, ⟨hst, rfl⟩ | ⟨d', row, -, -, hstored, hrow, rfl⟩⟩ :=
      h.item_cases hs.toWellFormed hres hb
    · obtain ⟨row, r, hrow, hsync, hr⟩ := (hs.mirrors kind).row_of_item ha hd
      refine ⟨row, r, ?_, hsync, h.localRow?_of_committed hs hlive hres ha hst hsync hr⟩
      rw [h.row?_of_committed hs.toWellFormed hs.bounded hres ha hst hd]
      exact hrow
    · obtain rfl := Option.some.inj hd
      exact ⟨_, _, hrow, rfl, h.localRow?_of_written hs hlive hres ha halive hstored⟩

/-- The gate has looked at the keys of every kind with something to write. -/
theorem Commits.sharedKey?_eq_none (h : s.Commits db reserved id s' db') (hs : s.Aligned db)
    {i : ItemId} {item : Item} (hi : s.item? ⟨kind, i⟩ = some item)
    (hpending : item.status.isPending = true) : (s.table kind).sharedKey? = none := by
  have hget : (s.table kind).get? i = some item := by rwa [item?_eq] at hi
  have hkind : (s.table kind).pending.kind = kind := hs.kind_eq kind
  have hempty : (s.table kind).pending.isEmpty = false := Bool.eq_false_iff.2 fun hnil => by
    obtain ⟨hadd, hupdate, hremove⟩ := Pending.isEmpty_iff.1 hnil
    have hnot : ∀ {l : List ItemId}, l = [] → i ∉ l := fun hl => hl ▸ List.not_mem_nil
    cases hst : item.status with
    | toAdd => exact hnot hadd (Table.mem_pending_toAdd.2 ⟨item, hget, hst⟩)
    | toUpdate => exact hnot hupdate (Table.mem_pending_toUpdate.2 ⟨item, hget, hst⟩)
    | toRemove =>
      obtain ⟨d, hd⟩ := hs.faithful.exists_dbId hs.toCoherent hi (by rw [hst]; rfl)
      exact hnot hremove (Table.mem_pending_toRemove.2 ⟨item, hget, hst, by rw [hd]; rfl⟩)
    | committed | addedAndRemoved => rw [hst] at hpending; cases hpending
  have hmem : (s.table kind).pending ∈ s.pending := by
    rw [mem_pending hs.toCoherent, hkind]
    exact ⟨rfl, hempty⟩
  have hgate := List.findSome?_eq_none_iff.1 h.gate _ hmem
  rw [hkind, Option.map_eq_none_iff] at hgate
  unfold table at hget ⊢
  cases ht : s.table? kind with
  | none =>
    rw [ht, Option.getD_none, Table.get?_empty] at hget
    cases hget
  | some t =>
    rw [ht, Option.bind_some] at hgate
    exact hgate

/-- A commit keeps the unique keys of the database distinct. -/
theorem Commits.keysDistinct (h : s.Commits db reserved id s' db') (hs : s.Aligned db)
    (hlive : s.ReferencesLive) (hres : s.Reserves db reserved db₁) (hkeys : db.KeysDistinct) :
    db'.KeysDistinct := by
  intro kind d d' row row' key hrow hrow' hk hk'
  by_cases hpending : ∃ i item, s.item? ⟨kind, i⟩ = some item ∧ item.status.isPending = true
  · obtain ⟨i₀, item₀, hi₀, hp₀⟩ := hpending
    have hgate := h.sharedKey?_eq_none hs hi₀ hp₀
    have haligned := h.aligned hs hlive hres
    have hread : ∀ {d row}, db'.row? kind d = some row → ∃ i a r, s.item? ⟨kind, i⟩ = some a ∧
        a.removed = false ∧ s.goal? reserved ⟨kind, i⟩ = some d ∧ s'.localRow? kind row = some r ∧
        a.content = kind.contentOf r := by
      intro d row hrow
      obtain ⟨i, a, ha, halive, hgoal⟩ := h.item_of_row hs hrow
      obtain ⟨d', b, hgoal', hb, hdb, hcontent⟩ :=
        h.live_item hs.faithful hs.toCoherent hres ha halive
      obtain rfl := Option.some.inj (hgoal.symm.trans hgoal')
      obtain ⟨row', r, hrow', hsync, hr⟩ := (haligned.mirrors kind).row_of_item hb hdb
      obtain rfl := Option.some.inj (hrow.symm.trans hrow')
      obtain ⟨-, r', hr', hc⟩ :=
        (haligned.faithful hb).truthful.2 (h.clean hs.toWellFormed hres hb)
      obtain rfl := Option.some.inj (hsync.symm.trans hr')
      rw [haligned.item_kind hb] at hc
      exact ⟨i, a, r, ha, halive, hgoal, hr, hcontent.symm.trans hc⟩
    have hmem : ∀ {i a}, s.item? ⟨kind, i⟩ = some a → a.removed = false →
        a ∈ (s.table kind).live := by
      intro i a ha halive
      have hid : a.id = i := item_id ha
      rw [item?_eq, ← hid] at ha
      exact List.mem_filter.2 ⟨Table.mem_all_iff.2 ha, by rw [halive]; rfl⟩
    obtain ⟨i, a, r, ha, halive, hgoal, hr, hc⟩ := hread hrow
    obtain ⟨i', a', r', ha', halive', hgoal', hr', hc'⟩ := hread hrow'
    obtain ⟨key', hkr, hkr'⟩ := (sharesKey_iff_of_localRow? hr hr').2 ⟨key, hk, hk'⟩
    rw [← keysOf_contentOf, ← hc] at hkr
    rw [← keysOf_contentOf, ← hc'] at hkr'
    rw [← hs.kind_eq kind] at hkr hkr'
    obtain rfl : a = a' := Table.eq_of_sharedKey?_eq_none hgate (hmem ha halive)
      (hmem ha' halive') hkr hkr'
    have hid : i = i' := (item_id ha).symm.trans (item_id ha')
    rw [hid, hgoal'] at hgoal
    exact (Option.some.inj hgoal).symm
  · have hkept : ∀ d, db'.row? kind d = db.row? kind d := by
      intro d
      refine h.writes.kept ?_
      rintro ⟨k, i⟩ item hi rfl hp
      exact absurd ⟨i, item, hi, hp⟩ hpending
    rw [hkept] at hrow hrow'
    exact hkeys hrow hrow' hk hk'

/-- An item whose row is still there after a commit was live. -/
theorem Commits.isLive_of_row (h : s.Commits db reserved id s' db') (hs : s.Aligned db)
    (hres : s.Reserves db reserved db₁) {i : ItemId} {x : Item} {d : DbId}
    (hx : s.item? ⟨kind, i⟩ = some x) (hd : x.dbId = some d)
    (hrow : ∃ row, db'.row? kind d = some row) : s.isLive ⟨kind, i⟩ = true := by
  obtain ⟨row, hrow⟩ := hrow
  obtain ⟨j, a, ha, halive, hgoal⟩ := h.item_of_row hs hrow
  obtain rfl : j = i := eq_of_goal? hs.toWellFormed hs.bounded hres hgoal hx hd
  exact isLive_iff.2 ⟨a, ha, halive⟩

/-- If all references hold after a commit, a committed item referred to live items only. -/
theorem Commits.isLive_of_committed (h : s.Commits db reserved id s' db') (hs : s.Aligned db)
    (hres : s.Reserves db reserved db₁) (hhold : db'.ReferencesHold) {r : ItemRef} {item : Item}
    (hi : s.item? r = some item) (hst : item.status = .committed) {field : String} {target : Kind}
    {y : ItemId} (he : (field, target) ∈ item.kind.references)
    (hy : item.content.get? field = some (.ref y)) : s.isLive ⟨target, y⟩ = true := by
  have hk := hs.item_kind hi
  obtain ⟨d, hd⟩ := hs.faithful.exists_dbId hs.toCoherent hi (by rw [hst]; rfl)
  obtain ⟨row, r', hrow, hsync, hr⟩ := (hs.mirrors r.kind).row_of_item hi hd
  obtain ⟨-, r'', hr'', hc⟩ := (hs.faithful hi).truthful.2 hst
  obtain rfl := Option.some.inj (hsync.symm.trans hr'')
  have hkept := h.row?_of_committed hs.toWellFormed hs.bounded hres hi hst hd
  obtain ⟨n, target', hn, htarget⟩ := hhold (hkept.trans hrow) (field, target) (hk ▸ he)
  rw [hc, hk] at hy
  obtain ⟨n', hn', hrowy⟩ := (get?_contentOf_eq_ref_iff hr (e := (field, target)) (hk ▸ he)).1 hy
  rw [hn] at hn'
  cases hn'
  obtain ⟨x, hx, hdx⟩ := hs.itemOfRow?_eq_some_iff.1 hrowy
  exact h.isLive_of_row hs hres hx hdx ⟨target', htarget⟩

/-- So did an item that was written. -/
theorem Commits.isLive_of_written (h : s.Commits db reserved id s' db') (hs : s.Aligned db)
    (hres : s.Reserves db reserved db₁) (hhold : db'.ReferencesHold) {r : ItemRef} {item : Item}
    (hi : s.item? r = some item) (hpend : item.status = .toAdd ∨ item.status = .toUpdate)
    {field : String} {target : Kind} {y : ItemId} (he : (field, target) ∈ item.kind.references)
    (hy : item.content.get? field = some (.ref y)) : s.isLive ⟨target, y⟩ = true := by
  have hk := hs.item_kind hi
  obtain ⟨d, row, -, hstored, hrow⟩ := h.writes.written hi hpend
  obtain ⟨base, htrans, rfl⟩ := storedRow_eq_ok_iff.1 hstored
  obtain ⟨n, target', hn, htarget⟩ := hhold hrow (field, target) (hk ▸ he)
  rw [base.get?_stamped_of_reference _ _ he] at hn
  dsimp only at hn htarget
  rcases htrans.translated (field, target) he with ⟨y', d', hy', hrowy, hbase⟩ | ⟨hnot, -⟩
  · dsimp only at hy' hrowy hbase
    rw [hy] at hy'
    cases hy'
    rw [hn] at hbase
    cases hbase
    rcases Option.or_eq_some_iff.1 hrowy with hdx | ⟨-, hl⟩
    · obtain ⟨x, hx, hdx⟩ := Option.bind_eq_some_iff.1 hdx
      exact h.isLive_of_row hs hres hx hdx ⟨target', htarget⟩
    · -- the item referred to is itself one to add, and it is of the right kind
      obtain ⟨k, x, hx, hxadd, -⟩ := hres.given hl
      obtain ⟨y', hy', hnames⟩ := (hs.faithful hi).refers (field, target) he
      rw [hy] at hy'
      cases hy'
      obtain rfl : k = target := hnames.2 k x hx
      exact isLive_iff.2 ⟨x, hx, by rw [Item.removed, hxadd]; rfl⟩
  · exact absurd hy (hnot y)

/-- If all references hold after a commit, the live items referred to live items only. -/
theorem Commits.referencesLive (h : s.Commits db reserved id s' db') (hs : s.Aligned db)
    (hres : s.Reserves db reserved db₁) (hhold : db'.ReferencesHold) : s.ReferencesLive := by
  rintro r item hi hlive ⟨target, y⟩ hmem
  obtain ⟨field, he, hy⟩ := Item.mem_references_iff.1 hmem
  rcases Item.status_of_live hlive with hst | hpend
  · exact h.isLive_of_committed hs hres hhold hi hst he hy
  · exact h.isLive_of_written hs hres hhold hi hpend he hy

/-! ### Nothing to refuse -/

/-- A live item can be written if live items refer to live items only. -/
theorem Aligned.exists_storedRow (hs : s.Aligned db) (hlive : s.ReferencesLive)
    (hres : s.Reserves db reserved db₁) {r : ItemRef} {item : Item} (hi : s.item? r = some item)
    (hl : item.removed = false) (d : DbId) : ∃ row, s.storedRow reserved item d = .ok row := by
  refine Session.exists_storedRow d fun e he => ?_
  obtain ⟨y, target, hy, ht, htl⟩ := hlive.exists_item hs.faithful hi hl he
  obtain ⟨dy, hdy⟩ := hs.faithful.exists_goal? hs.toCoherent hres ht htl
  exact ⟨y, dy, hy, (hs.faithful.rowOf?_eq_goal? hs.toCoherent hres ht).trans hdy⟩

/-- The batch of an aligned session can be put together. -/
theorem Aligned.exists_batch (hs : s.Aligned db) (hlive : s.ReferencesLive)
    (hres : s.Reserves db reserved db₁) : ∃ batch, s.batch s.pending reserved = .ok batch := by
  have hupdates : ∃ ms, (s.pending.flatMap Pending.updates).mapM (s.updateOf reserved) = .ok ms := by
    refine exists_mapM_eq_ok fun r hr => ?_
    obtain ⟨item, hi, hst⟩ := (mem_updates_iff hs.toCoherent).1 hr
    obtain ⟨d, hd⟩ := hs.faithful.exists_dbId hs.toCoherent hi (by rw [hst]; rfl)
    obtain ⟨row, hrow⟩ := hs.exists_storedRow hlive hres hi (by rw [Item.removed, hst]; rfl) d
    refine ⟨.update r.kind row, ?_⟩
    unfold updateOf
    rw [hi]
    dsimp only
    rw [hd]
    exact bind_eq_ok_iff.2 ⟨row, hrow, rfl⟩
  have hadditions : ∃ ms, ((s.pending.flatMap Pending.additions).filterMap fun r =>
      (reserved.lookup r.id).map (r, ·)).mapM (fun x => s.insertionOf reserved x.1 x.2) = .ok ms := by
    refine exists_mapM_eq_ok fun x hx => ?_
    obtain ⟨r, hr, hx⟩ := List.mem_filterMap.1 hx
    obtain ⟨d, -, rfl⟩ := Option.map_eq_some_iff.1 hx
    obtain ⟨item, hi, hst⟩ := (mem_additions_iff hs.toCoherent).1 hr
    obtain ⟨row, hrow⟩ := hs.exists_storedRow hlive hres hi (by rw [Item.removed, hst]; rfl) d
    refine ⟨.insert r.kind row, ?_⟩
    unfold insertionOf
    dsimp only
    rw [hi]
    exact bind_eq_ok_iff.2 ⟨row, hrow, rfl⟩
  obtain ⟨ups, hups⟩ := hupdates
  obtain ⟨adds, hadds⟩ := hadditions
  exact ⟨_, bind_eq_ok_iff.2 ⟨ups, hups, bind_eq_ok_iff.2 ⟨adds, hadds, rfl⟩⟩⟩

/-- An aligned session updates rows that are there, and inserts rows that are not. -/
theorem Aligned.refusal?_eq_none (hs : s.Aligned db) (hdb : db.Sound)
    (hres : s.Reserves db reserved db₁) {batch : List Mutation}
    (hbatch : s.batch s.pending reserved = .ok batch) {m : Mutation} (hm : m ∈ batch) :
    db₁.refusal? m = none := by
  rcases mem_batch_cases hbatch hm with ⟨kind, d, rfl⟩ | ⟨r, item, d, row, hi, hd, hstored, rfl⟩ |
    ⟨r, item, d, row, hi, hl, hstored, rfl⟩
  · rfl
  · obtain ⟨stored, -, hrow, -⟩ := (hs.mirrors r.kind).row_of_item hi hd
    rw [← hres.row?_eq] at hrow
    exact Database.refusal?_update_eq_none (dbId?_storedRow hstored) hrow
  · have hnone := hres.row?_eq_none hs.toCoherent hdb hi hl
    rw [← hres.row?_eq] at hnone
    exact Database.refusal?_insert_eq_none (dbId?_storedRow hstored) hnone

/-- The batch of an aligned session can be put together, and no change of it is refused. -/
theorem Aligned.not_batchRefused (hs : s.Aligned db) (hlive : s.ReferencesLive) (hdb : db.Sound)
    (hres : s.Reserves db reserved db₁) (e : Error) : ¬ s.BatchRefused reserved db₁ e := by
  rintro (hfail | ⟨batch, hbatch, hrefused⟩)
  · obtain ⟨batch, hok⟩ := hs.exists_batch hlive hres
    rw [hok] at hfail
    cases hfail
  · obtain ⟨m, hm, hrefusal⟩ := List.exists_of_findSome?_eq_some hrefused
    rw [hs.refusal?_eq_none hdb hres hbatch hm] at hrefusal
    cases hrefusal

end Session

end StagedEdits
